import ForkingLR.Proofs.Engine.Completeness
import Mathlib.Algebra.Ring.Int.Defs

/-! The reduction limit. Where no production is empty and no symbol derives itself, a token lets a stack
reduce at each height at most once for each state before it gets lower, so the limit is never met and
every sentence is parsed. Where productions may be empty, a stack can reduce more often than that and
still be on its way to a tree. -/
namespace ForkingLR

namespace Grammar
open Table
variable {g : Grammar}

def Makes (g : Grammar) (x y : Symbol) : Prop := Relation.TransGen g.cfg.Step [x] [y]

def CycleFree (g : Grammar) : Prop := ∀ x, ¬ g.Makes x x

theorem makesUnit {p : Production Symbol} {x : Symbol} (inside : p ∈ g.productions)
    (unit : p.rhs = [x]) : g.Makes p.lhs x := by
  have step := Cfg.Step.replace (g := g.cfg) [] [] inside
  rw [unit] at step
  exact .single step

theorem cycleFreeOfWeight (weight : Symbol → Int)
    (drops : ∀ p ∈ g.productions, (p.rhs.map weight).sum < weight p.lhs) : g.CycleFree := by
  have step {u v : List Symbol} (h : g.cfg.Step u v) : (v.map weight).sum < (u.map weight).sum := by
    cases h with
    | replace before after inside =>
      have drop := drops _ inside
      simp only [List.map_append, List.map_cons, List.sum_append, List.sum_cons]
      omega
  have steps {u v : List Symbol} (h : Relation.TransGen g.cfg.Step u v) :
      (v.map weight).sum < (u.map weight).sum := by
    induction h with
    | single once => exact step once
    | tail _ once ih => exact Int.lt_trans (step once) ih
  intro x cycle
  exact Int.lt_irrefl _ (steps cycle)

end Grammar

namespace Frames
variable {V : Type}

theorem heightDrop {count : Nat} :
    ∀ {frames : Frames V}, frames.covers count = true →
      (frames.drop count).height + count = frames.height := by
  induction count with
  | zero => exact fun _ => rfl
  | succ count ih =>
    intro frames covers
    cases frames with
    | bottom => cases covers
    | push state value below =>
      have deeper : (below.drop count).height + count = below.height := ih covers
      simp only [drop, height]
      omega

end Frames

namespace Automaton
open Table
variable {V : Type} {a : Automaton}

/-- States that unit productions have led through since the top frame got this low. -/
structure Climbed (a : Automaton) (frames : Frames V) (passed : List Nat) : Prop where
  distinct : passed.Nodup
  below : ∀ t ∈ passed, ∃ x y, Moves a.states (frames.drop 1).state x frames.state ∧
    Moves a.states (frames.drop 1).state y t ∧ a.grammar.Makes x y

theorem climbedFresh (a : Automaton) (frames : Frames V) : a.Climbed frames [] := ⟨List.nodup_nil, nofun⟩

theorem Trimmed.moveBound (trimmed : a.Trimmed) {s t : Nat} {x : Symbol} (move : Moves a.states s x t) :
    0 < t ∧ t < a.size := by
  have move' := trimmed.moves.1 move
  obtain ⟨i, held, next⟩ := Grammar.nextOfMoves trimmed.wellFormed move'
  obtain ⟨st, found, _⟩ := trimmed.holds.2 (Grammar.holdsAdvance trimmed.wellFormed move' held next)
  exact ⟨Nat.pos_of_ne_zero (Grammar.movesNotStart trimmed.wellFormed move'),
    (List.getElem?_eq_some_iff.1 found).1⟩

theorem Climbed.short (trimmed : a.Trimmed) {frames : Frames V} {passed : List Nat}
    (h : a.Climbed frames passed) (some : 0 < a.size) : passed.length < a.size := by
  have fresh : (0 :: passed).Nodup := by
    refine List.nodup_cons.2 ⟨?_, h.distinct⟩
    intro inside
    obtain ⟨_, _, _, move, _⟩ := h.below 0 inside
    exact lt_irrefl _ (trimmed.moveBound move).1
  have known : 0 :: passed ⊆ List.range a.size := by
    intro t inside
    rw [List.mem_range]
    rcases List.mem_cons.1 inside with rfl | inside
    · exact some
    · obtain ⟨_, _, _, move, _⟩ := h.below t inside
      exact (trimmed.moveBound move).2
  have count := (List.subperm_of_subset fresh known).length_le
  rw [List.length_cons, List.length_range] at count
  exact count

theorem Climbed.unit (trimmed : a.Trimmed) (cycleFree : a.grammar.CycleFree) {below : Frames V}
    {target target' : Nat} {value value' : V} {passed : List Nat} {x : Symbol} {p : Production Symbol}
    (h : a.Climbed (.push target value below) passed) (move : Moves a.states below.state x target)
    (inside : p ∈ a.grammar.productions) (unit : p.rhs = [x])
    (goto : Moves a.states below.state p.lhs target') :
    a.Climbed (.push target' value' below) (target :: passed) := by
  have wf := trimmed.wellFormed
  have makes := Grammar.makesUnit inside unit
  constructor
  · refine List.nodup_cons.2 ⟨?_, h.distinct⟩
    intro again
    obtain ⟨y, z, own, other, derived⟩ := h.below target again
    obtain rfl := Grammar.movesSymbol wf (trimmed.moves.1 own) (trimmed.moves.1 other)
    exact cycleFree y derived
  · intro t member
    rcases List.mem_cons.1 member with rfl | member
    · exact ⟨p.lhs, x, goto, move, makes⟩
    · obtain ⟨y, z, own, other, derived⟩ := h.below t member
      obtain rfl := Grammar.movesSymbol wf (trimmed.moves.1 move) (trimmed.moves.1 own)
      exact ⟨p.lhs, z, goto, other, makes.trans derived⟩

end Automaton

namespace Round
variable {V : Type} [SemanticValue V] {e : Engine V} {m : Moment V}

theorem cycledAct (r : Round V) (s : Stack V) (action : Action)
    (within : ∀ id, action = .reduce id → s.reductions + 1 ≤ e.reductionLimit s) :
    (act e m r s action).cycled = r.cycled := by
  cases action with
  | shift target => rfl
  | accept => rfl
  | goto target => rfl
  | reduce id =>
    have room := within id rfl
    simp only [act]
    split
    · rename_i exceeded
      simp only [Stack.countReduction, Engine.reductionLimit] at exceeded room
      omega
    · split
      · rfl
      · rfl

theorem cycledStarve (r : Round V) (s : Stack V) : (starve e m r s).cycled = r.cycled := by
  unfold starve
  split
  · rfl
  · split
    · split
      · rfl
      · rfl
    · rfl

theorem cycledStep (r : Round V)
    (within : ∀ s id, r.hand = some s → .reduce id ∈ r.todo → s.reductions + 1 ≤ e.reductionLimit s) :
    (r.step e m).cycled = r.cycled := by
  unfold step
  split
  · exact cycledStarve _ _
  · rename_i s action held last
    refine cycledAct _ s action ?_
    rintro id rfl
    exact within s id held (by simp [last])
  · rename_i s action todo _ held several
    unfold forkAct
    split
    · rfl
    · refine (cycledAct _ (s.fork r.nextId) action ?_).trans rfl
      rintro id rfl
      exact within s id held (by simp [several])
  · split
    · rfl
    · rfl

end Round

namespace Engine
open Table
variable {V : Type} [SemanticValue V] {e : Engine V}

/-- A stack has used no more of the limit than the height it has lost and the states it has passed.
Recovery, which comes once for a token, may give it a frame and start it again. -/
structure Paced (e : Engine V) (index : Nat) (s : Stack V) : Prop where
  spells : ∃ word, e.automaton.Spells s.frames word
  spent : ∃ passed, e.automaton.Climbed s.frames passed ∧
    s.reductions + s.depth * e.automaton.size ≤
      (s.entryDepth + if s.recovery.canRecoverAt index then 0 else 2) * e.automaton.size + passed.length

structure Sparing (a : Automaton) : Prop where
  trimmed : a.Trimmed
  cycleFree : a.grammar.CycleFree
  nonempty : ∀ p ∈ a.grammar.productions, p.rhs ≠ []

section
variable (sparing : Sparing e.automaton)
include sparing

omit [SemanticValue V] in
theorem Sparing.sizePos : 0 < e.automaton.size := by
  obtain ⟨st, found, _⟩ := sparing.trimmed.holds.2 (Grammar.holdsStart sparing.trimmed.wellFormed)
  exact (List.getElem?_eq_some_iff.1 found).1

omit [SemanticValue V] in
theorem Paced.within {index id : Nat} {s : Stack V} {x : Symbol} (h : e.Paced index s)
    (listed : .reduce id ∈ e.automaton.actions s.state x) : s.reductions + 1 ≤ e.reductionLimit s := by
  obtain ⟨word, spells⟩ := h.spells
  obtain ⟨passed, climbed, spent⟩ := h.spent
  obtain ⟨p, ready⟩ := sparing.trimmed.ready spells listed
  obtain ⟨under, spelled⟩ := ready.spelled
  have covered := Frames.heightDrop spelled.covers.1
  have some : p.rhs.length ≠ 0 := by
    have nonempty := sparing.nonempty p (List.mem_of_getElem? ready.found)
    simpa using nonempty
  rw [List.length_reverse] at covered
  have short := climbed.short sparing.trimmed sparing.sizePos
  have tall : 2 * e.automaton.size ≤ s.depth * e.automaton.size := by
    refine Nat.mul_le_mul_right _ ?_
    simp only [Stack.depth]
    omega
  have limit : e.reductionLimit s = s.entryDepth * e.automaton.size + e.automaton.size := by
    rw [reductionLimit, Nat.max_eq_left sparing.sizePos, Nat.add_mul, Nat.one_mul]
  have most : (s.entryDepth + if s.recovery.canRecoverAt index then 0 else 2) * e.automaton.size ≤
      s.entryDepth * e.automaton.size + 2 * e.automaton.size := by
    rw [← Nat.add_mul]
    refine Nat.mul_le_mul_right _ ?_
    split
    · omega
    · omega
  omega

theorem Paced.reduce {index id : Nat} {s after : Stack V} {x : Symbol} (h : e.Paced index s)
    (listed : .reduce id ∈ e.automaton.actions s.state x)
    (reduced : e.reduce s.countReduction id = .ok after) : e.Paced index after := by
  have trimmed := sparing.trimmed
  obtain ⟨word, spells⟩ := h.spells
  obtain ⟨passed, climbed, spent⟩ := h.spent
  obtain ⟨p, ready⟩ := trimmed.ready spells listed
  obtain ⟨under, spelled⟩ := ready.spelled
  obtain ⟨p', reducer, target, found, _, covers, goto, built⟩ := reduceSource reduced
  obtain rfl := Option.some.inj (ready.found.symm.trans found)
  obtain ⟨value, frames⟩ : ∃ value, after.frames = .push target value (s.frames.drop p.rhs.length) :=
    ⟨_, by rw [built]; rfl⟩
  have move : Moves e.automaton.states (s.frames.drop p.rhs.length).state p.lhs target :=
    trimmed.gotoFound goto
  obtain ⟨counted, entered, recovered⟩ := reduceCounters reduced
  have same : after.recovery.canRecoverAt index = s.recovery.canRecoverAt index := by
    simp only [Recovery.canRecoverAt, recovered, Stack.countReduction]
  have lower : after.depth + p.rhs.length = s.depth + 1 := by
    have dropped : (s.frames.drop p.rhs.length).height + p.rhs.length = s.frames.height :=
      Frames.heightDrop covers
    simp only [Stack.depth, frames, Frames.height]
    omega
  have spells' : e.automaton.Spells after.frames (p.lhs :: word.drop p.rhs.length) := by
    rw [frames]
    exact .push (spells.drop covers) move
  refine ⟨⟨_, spells'⟩, ?_⟩
  rw [counted, entered, same, frames]
  simp only [Stack.countReduction]
  rcases shape : p.rhs with _ | ⟨y, _ | ⟨z, more⟩⟩
  · exact absurd shape (sparing.nonempty p (List.mem_of_getElem? found))
  -- A unit production keeps the height and leaves one more state behind.
  · rw [shape] at spelled lower move
    have level : after.depth = s.depth := by simpa using lower
    generalize s.frames = before at spelled climbed move
    cases spelled with
    | @push below _ _ top _ _ entry =>
      refine ⟨top :: passed, climbed.unit trimmed sparing.cycleFree entry (List.mem_of_getElem? found)
        shape move, ?_⟩
      rw [level, List.length_cons]
      omega
  -- Any other takes a frame off at least, which pays for the states that were passed.
  · have short := climbed.short trimmed sparing.sizePos
    have gone : (after.depth + 1) * e.automaton.size ≤ s.depth * e.automaton.size := by
      refine Nat.mul_le_mul_right _ ?_
      simp only [shape, List.length_cons] at lower
      omega
    rw [Nat.add_mul, Nat.one_mul] at gone
    refine ⟨[], e.automaton.climbedFresh _, ?_⟩
    rw [List.length_nil]
    omega

theorem Paced.recover {m : Moment V} {s after : Stack V} (h : e.Paced m.index s)
    (able : s.recovery.canRecoverAt m.index = true) (recovered : e.recover? m s = some after) :
    e.Paced m.index after := by
  have trimmed := sparing.trimmed
  obtain ⟨word, spells⟩ := h.spells
  obtain ⟨passed, climbed, spent⟩ := h.spent
  obtain ⟨count, target, covers, listed, rfl⟩ := recoverSource recovered
  refine ⟨⟨_, .push (spells.drop covers) (trimmed.shiftMoves listed)⟩, [], e.automaton.climbedFresh _, ?_⟩
  have short := climbed.short trimmed sparing.sizePos
  have dropped := Frames.heightDrop covers
  have higher : ((s.frames.drop count).height + 1 + 1) * e.automaton.size ≤
      (s.depth + 1) * e.automaton.size := by
    refine Nat.mul_le_mul_right _ ?_
    simp only [Stack.depth]
    omega
  rw [able, if_pos rfl, Nat.add_zero] at spent
  rw [Nat.add_mul s.depth, Nat.one_mul] at higher
  simp only [Stack.depth, Frames.height, Recovery.canRecoverAt, Recovery.enter, ne_eq, not_true_eq_false,
    decide_false, Bool.false_eq_true, if_false, List.length_nil, Nat.add_zero, Nat.add_mul s.entryDepth]
  omega

theorem pacedPreserved {m : Moment V} :
    Round.Preserves e m (e.Paced m.index) (fun s => ∃ word, e.automaton.Spells s.frames word)
      (fun _ => True) (fun _ => True) where
  fork := fun _ _ h => ⟨h.spells, h.spent⟩
  shift := by
    intro s target h listed
    obtain ⟨word, spells⟩ := h.spells
    exact ⟨_, .push spells (sparing.trimmed.shiftMoves listed)⟩
  reduce := fun _ _ _ h listed reduced => h.reduce sparing listed reduced
  fails := fun _ _ _ _ _ _ => trivial
  accept := fun _ _ _ => trivial
  goto := fun _ _ _ _ => trivial
  skip := fun _ h _ _ => h.spells
  recover := fun _ _ h _ able recovered => h.recover sparing able recovered

theorem Visits.paced {tokens seen rest : List (Token V)} {m : Moment V} {r : Round V}
    (h : e.Visits tokens seen m rest r) :
    r.Keeps e m (e.Paced m.index) (fun s => ∃ word, e.automaton.Spells s.frames word)
      (fun _ => True) (fun _ => True) := by
  rw [h.placed.index]
  refine h.keepsBoth (W := fun seen => e.Paced seen.length)
    (M := fun _ s => ∃ word, e.automaton.Spells s.frames word) ⟨[], .bottom⟩ ?_ ?_
  · intro seen s spells
    refine ⟨spells, [], e.automaton.climbedFresh _, ?_⟩
    simp only [Stack.beginToken, Stack.depth, List.length_nil, Nat.zero_add, Nat.add_zero]
    exact Nat.mul_le_mul_right _ (Nat.le_add_right _ _)
  · intro seen m rest placed
    rw [← placed.index]
    exact pacedPreserved sparing

theorem Visits.acyclic {tokens seen rest : List (Token V)} {m : Moment V} {r : Round V}
    (h : e.Visits tokens seen m rest r) : r.cycled = false := by
  induction h with
  | first input known => rfl
  | step before working ih =>
    rw [Round.cycledStep, ih]
    intro s id held pending
    obtain ⟨paced, listed⟩ := (before.paced sparing).hand s held
    exact paced.within sparing (listed pending)
  | @next seen rest m r token terminal before done sane unfinished alive known ih =>
    have closed : (r.closeToken e).cycled = r.cycled := by
      unfold Round.closeToken
      split
      · rfl
      · rfl
    exact closed.trans ih

theorem runAcyclic (tokens : List (Token V)) : (e.run tokens).last.cycled = false := by
  refine runLast (P := fun r => r.cycled = false) ?_ (fun visited => visited.acyclic sparing) rfl
  intro r acyclic
  unfold Round.closeToken
  split
  · exact acyclic
  · exact acyclic

end

theorem parsedKnown {tokens : List (Token V)} {t : Tree V}
    (parses : t.Parses e.automaton (remainingOf tokens)) {token : Token V}
    (inside : token ∈ closeInput tokens) : e.automaton.terminal? token.kind ≠ none := by
  obtain ⟨last, ends, input⟩ := closeInputEnd tokens
  rw [input] at inside
  rcases List.mem_append.1 inside with content | final
  · obtain ⟨leaf, _, known, _⟩ := (forallMem parses.matched).2 token content
    simp [known]
  · rw [List.mem_singleton.1 final, e.automaton.terminalOfEnd ends]
    simp

theorem runFinds {tokens : List (Token V)} (equipped : e.Equipped (closeInput tokens))
    (ordinary : ∀ t ∈ tokens.dropLast, t.isEnd = false) (calm : Calm (e.run tokens).last) {t : Tree V}
    (parses : t.Parses e.automaton (remainingOf tokens)) :
    ∃ (t' : Tree V) (others : List (Accepted V)), t'.Parses e.automaton (remainingOf tokens) ∧
      (e.run tokens).result = .ok (⟨t'.evaluate e.reducers e.argStyle, []⟩ :: others) := by
  obtain ⟨last, ends, input⟩ := closeInputEnd tokens
  obtain ⟨value, complete⟩ := treeCompletes (input ▸ equipped) ends parses
  rw [← input] at complete
  obtain ⟨completed, accepted, _, some, aligned, answer⟩ :=
    runAccepts equipped.fitted (fun _ => parsedKnown parses) calm complete
  obtain ⟨first, others, rfl⟩ := List.exists_cons_of_ne_nil some
  obtain ⟨turns, _, ⟨⟨t', complete'⟩, unharmed⟩, _⟩ := List.forall₂_cons_right_iff.1 aligned
  obtain ⟨parses', _, valued⟩ := completesParses equipped.fitted ordinary complete'
  exact ⟨t', others, parses', by rw [answer, ← valued, ← unharmed]⟩

end Engine

namespace Parser
variable {V : Type} [SemanticValue V]

theorem limitSparesSentences {g : Grammar} {config : TableConfig} (built : g.Built)
    (cycleFree : g.CycleFree) (nonempty : ∀ p ∈ g.productions, p.rhs ≠ []) (p : Parser V)
    (table : Automaton.build g config = .ok p.automaton) (d : ParserDraft V)
    (made : p.reducers = d.reducers g) (tokens : List (Token V)) :
    (∀ mode traced, ({ p.engine mode with traced }.run tokens).last.cycled = false) ∧
    (config.precedence = false → (∀ t ∈ tokens.dropLast, t.isEnd = false) →
      (∀ t ∈ tokens, t.kind ≠ "ERROR") → ((p.engine .first).run tokens).last.overflowed = false →
      ∀ t : Tree V, t.Parses p.automaton (Engine.remainingOf tokens) →
        ∃ t' : Tree V, t'.Parses p.automaton (Engine.remainingOf tokens) ∧
          p.parse tokens = .ok (t'.evaluate p.reducers p.argStyle)) := by
  obtain rfl : p.automaton.grammar = g := (Automaton.buildSource table).1
  have trimmed := Automaton.trimmedBuild built table
  have sparing : Engine.Sparing p.automaton := ⟨trimmed, cycleFree, nonempty⟩
  constructor
  · intro mode traced
    exact Engine.runAcyclic (e := { p.engine mode with traced }) sparing tokens
  · intro free ordinary proper room t parses
    have equipped : (p.engine .first).Equipped (Engine.closeInput tokens) := by
      refine ⟨trimmed, Automaton.unresolvedBuild built table (.inl free), ?_, ?_⟩
      · show p.reducers.length = p.automaton.grammar.size
        rw [made, d.reducersLength]
      · intro token inside error
        rcases Engine.closeInputMem inside with given | marker
        · exact proper token given (Automaton.terminalError error)
        · cases (Automaton.terminalOfEnd _ marker).symm.trans error
    have acyclic := Engine.runAcyclic (e := p.engine .first) sparing tokens
    obtain ⟨t', others, parses', answer⟩ := Engine.runFinds equipped ordinary ⟨room, acyclic⟩ parses
    refine ⟨t', parses', ?_⟩
    rw [parse, conclude, answer]
    rfl

end Parser

namespace ParserDraft

theorem leftSumsRewrites {g : Grammar} (finished : leftSums.grammar.build = .ok g) :
    g.cfg.Rewrites [⟨3, .nonterminal⟩] [⟨6, .terminal⟩, ⟨4, .terminal⟩, ⟨6, .terminal⟩] := by
  have listed := leftSumsProductions finished
  have rule (p : Production Symbol) (inside : p ∈ g.productions) (rest : List Symbol) :=
    Cfg.Rewrites.first (g := g.cfg) inside rest
  have sum := rule ⟨⟨3, .nonterminal⟩, [⟨3, .nonterminal⟩, ⟨4, .terminal⟩, ⟨5, .nonterminal⟩]⟩
    (by simp [listed]) []
  have single := rule ⟨⟨3, .nonterminal⟩, [⟨5, .nonterminal⟩]⟩ (by simp [listed])
    [⟨4, .terminal⟩, ⟨5, .nonterminal⟩]
  have number := rule ⟨⟨5, .nonterminal⟩, [⟨6, .terminal⟩]⟩ (by simp [listed])
  have last := (number []).append [⟨6, .terminal⟩, ⟨4, .terminal⟩] []
  exact sum.trans (single.trans ((number [⟨4, .terminal⟩, ⟨5, .nonterminal⟩]).trans last))

def blanks : ParserDraft Value where
  grammar := .ofCalls
    [.declare "a" ["b", "b", "b", "b"], .declare "b" ["c", "c", "c", "c"], .declare "c" []]

end ParserDraft

namespace Parser

def shortSum : List (Token Value) := [{ kind := "N" }, { kind := "PLUS" }, { kind := "N" }]

theorem shortSumSpared :
    ∃ p, ParserDraft.leftSums.finalize ⟨true, false⟩ = .ok p ∧ p.automaton.grammar.CycleFree ∧
      ∃ t : Tree Value, t.Parses p.automaton shortSum ∧
        p.parse shortSum = .ok (t.evaluate p.reducers p.argStyle) := by
  have ran : ((ParserDraft.leftSums.finalize ⟨true, false⟩).toOption.any fun p =>
      !((p.engine .first).run shortSum).last.overflowed &&
        decide (p.automaton.grammar.start = ⟨3, .nonterminal⟩) &&
        decide (p.automaton.terminal? "N" = some ⟨6, .terminal⟩) &&
        decide (p.automaton.terminal? "PLUS" = some ⟨4, .terminal⟩)) = true := by decide +kernel
  obtain ⟨p, finished, ran⟩ := okOfAny ran
  simp only [Bool.and_eq_true, Bool.not_eq_true', decide_eq_true_eq] at ran
  obtain ⟨⟨⟨room, start⟩, number⟩, plus⟩ := ran
  obtain ⟨g, a, built, table, rfl⟩ := ParserDraft.finalizeSource finished
  obtain rfl : a.grammar = g := (Automaton.buildSource table).1
  have listed := ParserDraft.leftSumsProductions built
  have cycleFree : a.grammar.CycleFree := by
    refine Grammar.cycleFreeOfWeight (fun x => [0, 0, 3, 2, -10, 1, 0].getD x.key 0) ?_
    rw [listed]
    decide
  have tree : ∃ t : Tree Value, t.Derives a.grammar ⟨3, .nonterminal⟩ ∧ t.leaves =
      [(⟨6, .terminal⟩, default), (⟨4, .terminal⟩, default), (⟨6, .terminal⟩, default)] :=
    Tree.ofRewrites (ParserDraft.leftSumsRewrites built) (by decide)
  obtain ⟨t, derives, leaves⟩ := tree
  have parses : t.Parses a shortSum := by
    refine ⟨show t.Derives a.grammar a.grammar.start from start ▸ derives, ?_⟩
    rw [leaves]
    exact .cons ⟨number, rfl⟩ (.cons ⟨plus, rfl⟩ (.cons ⟨number, rfl⟩ .nil))
  obtain ⟨_, spared⟩ := limitSparesSentences ⟨_, built⟩ cycleFree (by rw [listed]; decide)
    (ParserDraft.leftSums.toParser a.grammar a) table ParserDraft.leftSums rfl shortSum
  exact ⟨_, finished, cycleFree, spared rfl (by decide) (by decide) room t parses⟩

theorem limitCutsSentence :
    ∃ p, ParserDraft.blanks.finalize ⟨true, false⟩ = .ok p ∧ p.automaton.grammar.CycleFree ∧
      (∃ t : Tree Value, t.Parses p.automaton []) ∧
      ((p.engine .first).run []).last.overflowed = false ∧
      ((p.engine .first).run []).last.cycled = true ∧
      ∃ seen current remaining,
        p.parse [] = .error (.rejected (.notInLanguage seen current remaining)) := by
  have ran : ((ParserDraft.blanks.finalize ⟨true, false⟩).toOption.any fun p =>
      let last := ((p.engine .first).run []).last
      let g := p.automaton.grammar
      let weight (x : Symbol) : Int := [0, 0, 22, 21, 5, 1].getD x.key 0
      !last.overflowed && last.cycled && (g.cfg.firstTable.firstOf [g.start]).epsilon &&
        (g.productions.all fun p => (p.rhs.map weight).sum < weight p.lhs) &&
        match p.parse [] with
        | .error (.rejected (.notInLanguage _ _ _)) => true
        | _ => false) = true := by decide +kernel
  obtain ⟨p, finished, ran⟩ := okOfAny ran
  simp only [Bool.and_eq_true, Bool.not_eq_true', List.all_eq_true, decide_eq_true_eq] at ran
  obtain ⟨⟨⟨⟨room, cycled⟩, empty⟩, drops⟩, answer⟩ := ran
  have refused : ∃ seen current remaining,
      p.parse [] = .error (.rejected (.notInLanguage seen current remaining)) := by
    split at answer
    · rename_i seen current remaining refused
      exact ⟨seen, current, remaining, refused⟩
    · cases answer
  obtain ⟨g, a, built, table, rfl⟩ := ParserDraft.finalizeSource finished
  obtain rfl : a.grammar = g := (Automaton.buildSource table).1
  have wf := Grammar.Built.wellFormed ⟨_, built⟩
  have vanishes := ((Cfg.firstTableExact (g := a.grammar.cfg) wf.lhsNonterminal).epsilon _).1 empty
  have tree : ∃ t : Tree Value, t.Derives a.grammar a.grammar.start ∧ t.leaves = [] :=
    Tree.ofRewrites (Cfg.vanishesIff.1 vanishes) (by simp)
  obtain ⟨t, derives, leaves⟩ := tree
  exact ⟨_, finished, Grammar.cycleFreeOfWeight _ drops, ⟨t, derives, leaves ▸ .nil⟩, room, cycled, refused⟩

end Parser
end ForkingLR
