import ForkingLR.Proofs.Engine.Path
import ForkingLR.Proofs.Table.Lookahead
import ForkingLR.Proofs.Table.Passes
import ForkingLR.Proofs.Tree

/-! Reading a word of terminals by a table, with nothing on the stack but trees. Where a table holds
every action that lookahead allows, a word is read as each of its derivation trees: at each step a
canonical item awaits what comes next, so the action is offered and no lookahead rules it out. Where no
row has a choice there is one way to read. So a table without conflicts shows that its grammar is
unambiguous. -/
namespace ForkingLR

namespace Frames
variable {V : Type}

theorem dropDrop (frames : Frames V) (m n : Nat) : (frames.drop m).drop n = frames.drop (m + n) := by
  induction m generalizing frames with
  | zero => simp [Frames.drop]
  | succ m ih =>
    rw [Nat.succ_add]
    cases frames with
    | bottom =>
      cases n <;> rfl
    | push state value below => exact ih below

theorem topValuesAdd (frames : Frames V) (m n : Nat) (values : List V) :
    frames.topValues (m + n) values = (frames.drop m).topValues n (frames.topValues m values) := by
  induction m generalizing frames values with
  | zero => simp [Frames.drop, Frames.topValues]
  | succ m ih =>
    rw [Nat.succ_add]
    cases frames with
    | bottom => cases n <;> rfl
    | push state value below => exact ih below _

end Frames

structure Reading (V : Type) where
  frames : Frames (Tree V)
  left : List (Symbol × V)

def Reading.ahead {V : Type} (left : List (Symbol × V)) : Symbol :=
  (left.head?.map Prod.fst).getD .endOfInput

namespace Automaton
open Table Reading
variable {V W : Type} {a : Automaton}

inductive Step (a : Automaton) : Reading V → Reading V → Prop
  | shift {frames : Frames (Tree V)} {x : Symbol} {value : V} {rest : List (Symbol × V)} {target : Nat}
      (listed : .shift target ∈ a.actions frames.state x) :
      Step a ⟨frames, (x, value) :: rest⟩ ⟨.push target (.leaf x value) frames, rest⟩
  | reduce {frames : Frames (Tree V)} {left : List (Symbol × V)} {id target : Nat} {p : Production Symbol}
      (listed : .reduce id ∈ a.actions frames.state (ahead left)) (found : a.production? id = some p)
      (goto : a.goto? (frames.drop p.rhs.length).state p.lhs = some target) :
      Step a ⟨frames, left⟩ ⟨.push target (.node id (frames.topValues p.rhs.length []))
        (frames.drop p.rhs.length), left⟩

def Reads (a : Automaton) : Reading V → Reading V → Prop := Relation.ReflTransGen a.Step

def Admits (a : Automaton) (frames : Frames W) (i : Item) (x : Symbol) : Prop :=
  ∃ word, a.Spells frames word ∧ a.grammar.Valid word.reverse i x

section
variable {frames : Frames W} {i : Item} {x y : Symbol}

theorem admitsStart (a : Automaton) :
    a.Admits (W := W) .bottom ⟨a.grammar.startProduction, 0⟩ .endOfInput := ⟨[], .bottom, .start⟩

theorem Admits.push (h : a.Admits frames i x) (next : i.next? a.grammar.productions = some y)
    {target : Nat} (move : Moves a.states frames.state y target) (value : W) :
    a.Admits (.push target value frames) i.advance x := by
  obtain ⟨word, spells, valid⟩ := h
  refine ⟨y :: word, .push spells move, ?_⟩
  rw [List.reverse_cons]
  exact valid.shift next

theorem Admits.holds (trimmed : a.Trimmed) (h : a.Admits frames i x) :
    Holds a.grammar.lr0States frames.state i := by
  obtain ⟨word, spells, valid⟩ := h
  obtain ⟨s, walked, held⟩ := valid.holds trimmed.wellFormed
  obtain rfl := Except.ok.inj ((spells.walk trimmed).symm.trans walked)
  exact held

theorem Admits.shiftListed (trimmed : a.Trimmed) (unresolved : a.Unresolved) (h : a.Admits frames i x)
    (next : i.next? a.grammar.productions = some y) (terminal : isTerminal y = true) :
    ∃ target, .shift target ∈ a.actions frames.state y := by
  obtain ⟨target, move⟩ := Grammar.movesOfNext trimmed.wellFormed (h.holds trimmed) next
  exact ⟨target, unresolved.keeps (.shift terminal move) nofun⟩

theorem Admits.predict {outer dot id : Nat} {q p : Production Symbol} (h : a.Admits frames ⟨outer, dot⟩ x)
    (around : a.grammar.productions[outer]? = some q) (here : q.rhs[dot]? = some p.lhs)
    (found : a.grammar.productions[id]? = some p)
    (begins : a.grammar.cfg.FirstOf (q.rhs.drop (dot + 1) ++ [x]) y) : a.Admits frames ⟨id, 0⟩ y := by
  obtain ⟨word, spells, valid⟩ := h
  exact ⟨word, spells, valid.predict around here found begins⟩

theorem Admits.allows (trimmed : a.Trimmed) (config : TableConfig) {id : Nat} {p : Production Symbol}
    (found : a.grammar.productions[id]? = some p) (h : a.Admits frames ⟨id, p.rhs.length⟩ x)
    (known : x ∈ a.grammar.terminals) (ordinary : x ≠ .error) (other : id ≠ a.grammar.startProduction) :
    a.grammar.Allows config frames.state x (.reduce id) := by
  refine ⟨.reduce known ordinary other found (h.holds trimmed), ?_⟩
  intro _ id' lookaheads same answer
  cases same
  obtain ⟨word, spells, valid⟩ := h
  exact Grammar.validLookahead trimmed.wellFormed answer found (spells.walk trimmed) valid

theorem Admits.reduceListed (trimmed : a.Trimmed) (unresolved : a.Unresolved) {id : Nat}
    {p : Production Symbol} (found : a.grammar.productions[id]? = some p)
    (h : a.Admits frames ⟨id, p.rhs.length⟩ x) (known : x ∈ a.grammar.terminals)
    (ordinary : x ≠ .error) (other : id ≠ a.grammar.startProduction) :
    .reduce id ∈ a.actions frames.state x := by
  have allowed := h.allows trimmed {} found known ordinary other
  exact unresolved.keeps allowed.offered fun _ _ => allowed.expected rfl

end

def Readable (a : Automaton) (left : List (Symbol × V)) : Prop :=
  ∀ leaf ∈ left, leaf.1 ∈ a.grammar.terminals ∧ leaf.1 ≠ .error

theorem Readable.ahead {left : List (Symbol × V)} (h : a.Readable left) :
    ahead left ∈ a.grammar.terminals ∧ ahead left ≠ .error := by
  cases left with
  | nil => exact ⟨Grammar.memTerminals.2 (.inl rfl), nofun⟩
  | cons leaf left => exact h leaf List.mem_cons_self

theorem Readable.drop {front rest : List (Symbol × V)} (h : a.Readable (front ++ rest)) : a.Readable rest :=
  fun leaf inside => h leaf (List.mem_append_right _ inside)

/-- Where an item with `x` after its dot awaits the tree and what is left can come after it, the tree
is read from its own leaves. -/
def Grows (a : Automaton) (t : Tree V) : Prop :=
  ∀ {outer dot : Nat} {q : Production Symbol} {x z : Symbol} {frames : Frames (Tree V)}
    {rest : List (Symbol × V)},
    a.Admits frames ⟨outer, dot⟩ z → a.grammar.productions[outer]? = some q → q.rhs[dot]? = some x →
    t.Derives a.grammar x → a.Readable (t.leaves ++ rest) →
    a.grammar.cfg.FirstOf (q.rhs.drop (dot + 1) ++ [z]) (ahead rest) →
    ∃ target, a.Reads ⟨frames, t.leaves ++ rest⟩ ⟨.push target t frames, rest⟩ ∧
      Moves a.states frames.state x target

theorem firstAhead {u more : List Symbol} {front rest : List (Symbol × V)}
    (readable : a.Readable (front ++ rest))
    (rewrites : a.grammar.cfg.Rewrites u (front.map Prod.fst ++ ahead rest :: more)) :
    a.grammar.cfg.FirstOf u (ahead (front ++ rest)) := by
  refine ⟨Grammar.isTerminalOfMem readable.ahead.1, ?_⟩
  cases front with
  | nil => exact ⟨more, rewrites⟩
  | cons leaf front => exact ⟨_, rewrites⟩

theorem forestGrows {id : Nat} {p : Production Symbol} (found : a.grammar.productions[id]? = some p)
    {rest : List (Symbol × V)} :
    ∀ {children : List (Tree V)} {before after : List Symbol} {frames : Frames (Tree V)},
      (∀ t ∈ children, a.Grows t) → p.rhs = before ++ after →
      List.Forall₂ (Tree.Derives a.grammar) after children →
      a.Readable (children.flatMap Tree.leaves ++ rest) →
      a.Admits frames ⟨id, before.length⟩ (ahead rest) →
      ∃ grown, a.Reads ⟨frames, children.flatMap Tree.leaves ++ rest⟩ ⟨grown, rest⟩ ∧
        a.Admits grown ⟨id, p.rhs.length⟩ (ahead rest) ∧ grown.drop children.length = frames ∧
        grown.topValues children.length [] = children := by
  intro children
  induction children with
  | nil =>
    intro before after frames _ split derived _ admits
    cases derived
    rw [split, List.append_nil]
    exact ⟨frames, .refl, admits, rfl, rfl⟩
  | cons t children ih =>
    intro before after frames each split derived readable admits
    cases derived with
    | @cons y _ after _ one others =>
      rw [List.flatMap_cons, List.append_assoc] at readable ⊢
      have rewrites := (Tree.rewritesForest (fun t _ => t.rewrites) others).append [] [ahead rest]
      have here : p.rhs[before.length]? = some y := by simp [split]
      have later : p.rhs.drop (before.length + 1) = after := by simp [split]
      obtain ⟨target, first, move⟩ := each t List.mem_cons_self admits found here one readable
        (by rw [later]; exact firstAhead readable.drop rewrites)
      have admits := admits.push (Grammar.nextAfter found split) move t
      obtain ⟨grown, others, complete, base, values⟩ := ih
        (fun t inside => each t (List.mem_cons_of_mem _ inside))
        (show p.rhs = (before ++ [y]) ++ after by simp [split]) others readable.drop
        (by simpa [Item.advance] using admits)
      refine ⟨grown, first.trans others, complete, ?_, ?_⟩
      · rw [List.length_cons, ← Frames.dropDrop, base]
        rfl
      · rw [List.length_cons, Frames.topValuesAdd, base, values]
        rfl

theorem treeGrows (trimmed : a.Trimmed) (unresolved : a.Unresolved) (t : Tree V) : a.Grows t := by
  have wf := trimmed.wellFormed
  induction t using Tree.childInduction with
  | leaf symbol value =>
    intro outer dot q x z frames rest admits around here derived readable begins
    obtain ⟨rfl, terminal⟩ := Tree.derivesLeaf.1 derived
    obtain ⟨target, listed⟩ := admits.shiftListed trimmed unresolved (Item.nextIff.2 ⟨q, around, here⟩)
      terminal
    rw [Tree.leaves]
    exact ⟨target, .single (.shift listed), trimmed.shiftMoves listed⟩
  | node id children ih =>
    intro outer dot q x z frames rest admits around here derived readable begins
    obtain ⟨p, found, rfl, below⟩ := Tree.derivesNode.1 derived
    rw [Tree.leaves] at readable ⊢
    have inner : a.Admits frames ⟨id, 0⟩ (ahead rest) := admits.predict around here found begins
    obtain ⟨grown, read, complete, base, values⟩ :=
      forestGrows found ih (List.nil_append p.rhs).symm below readable inner
    have other : id ≠ a.grammar.startProduction := by
      rintro rfl
      obtain rfl := Option.some.inj (wf.startProduction.symm.trans found)
      exact wf.startUnused (List.mem_of_getElem? around) (List.mem_of_getElem? here)
    obtain ⟨known, ordinary⟩ := readable.drop.ahead
    have listed := complete.reduceListed trimmed unresolved found known ordinary other
    obtain ⟨target, goto⟩ := trimmed.gotoExists found other (trimmed.holds.2 (inner.holds trimmed))
    have count : children.length = p.rhs.length := below.length_eq.symm
    rw [count] at base values
    have step := Step.reduce listed found (base.symm ▸ goto)
    rw [base, values] at step
    exact ⟨target, read.tail step, trimmed.gotoFound goto⟩

def Accepts (a : Automaton) (word : List (Symbol × V)) (t : Tree V) : Prop :=
  ∃ target, a.Reads ⟨.bottom, word⟩ ⟨.push target t .bottom, []⟩ ∧ .accept ∈ a.actions target .endOfInput

theorem treeAccepted (trimmed : a.Trimmed) (unresolved : a.Unresolved) {t : Tree V}
    (derives : t.Derives a.grammar a.grammar.start) (readable : a.Readable t.leaves) :
    a.Accepts t.leaves t := by
  have wf := trimmed.wellFormed
  have admits := a.admitsStart (W := Tree V)
  rw [← List.append_nil t.leaves] at readable
  obtain ⟨target, read, move⟩ := treeGrows trimmed unresolved t admits wf.startProduction rfl derives readable
    ⟨rfl, [], .refl⟩
  rw [List.append_nil] at read
  have complete := admits.push (Item.nextIff.2 ⟨_, wf.startProduction, rfl⟩) move t
  exact ⟨target, read, unresolved.keeps (.accept rfl (complete.holds trimmed)) nofun⟩

def Deterministic (a : Automaton) : Prop := ∀ s x, (a.actions s x).length ≤ 1

theorem conflictsEmptyIff : a.conflicts = [] ↔ a.Deterministic := by
  constructor
  · intro none s x
    by_contra several
    have listed := memConflicts.2 ⟨rfl, not_le.1 several⟩
    rw [none] at listed
    contradiction
  · intro single
    rw [List.eq_nil_iff_forall_not_mem]
    rintro ⟨s, x, row⟩ listed
    obtain ⟨rfl, several⟩ := memConflicts.1 listed
    exact absurd (single s x) (not_le.2 several)

theorem Deterministic.sole (single : a.Deterministic) {s : Nat} {x : Symbol} {action other : Action}
    (listed : action ∈ a.actions s x) (listed' : other ∈ a.actions s x) : action = other := by
  have short := single s x
  obtain ⟨only, row⟩ := List.length_eq_one_iff.1 (Nat.le_antisymm short (List.length_pos_of_mem listed))
  rw [row, List.mem_singleton] at listed listed'
  rw [listed, listed']

theorem Deterministic.step (single : a.Deterministic) : Relator.RightUnique (a.Step (V := V)) := by
  intro r r₁ r₂ one two
  cases one with
  | shift listed =>
    cases two with
    | shift listed' => rw [Action.shift.inj (single.sole listed listed')]
    | reduce listed' _ _ => cases single.sole listed listed'
  | reduce listed found goto =>
    cases two with
    | shift listed' => cases single.sole listed listed'
    | reduce listed' found' goto' =>
      obtain rfl := Action.reduce.inj (single.sole listed listed')
      obtain rfl := Option.some.inj (found.symm.trans found')
      rw [Option.some.inj (goto.symm.trans goto')]

theorem Deterministic.final (single : a.Deterministic) {r r' : Reading V}
    (accepts : .accept ∈ a.actions r.frames.state (ahead r.left)) : ¬ a.Step r r' := by
  intro step
  cases step with
  | shift listed => cases single.sole accepts listed
  | reduce listed _ _ => cases single.sole accepts listed

theorem Deterministic.end (single : a.Deterministic) {r r₁ r₂ : Reading V} (one : a.Reads r r₁)
    (two : a.Reads r r₂) (accepts : .accept ∈ a.actions r₁.frames.state (ahead r₁.left))
    (accepts' : .accept ∈ a.actions r₂.frames.state (ahead r₂.left)) : r₁ = r₂ := by
  rcases Relation.ReflTransGen.total_of_right_unique single.step one two with further | further
  · rcases further.cases_head with same | ⟨_, step, _⟩
    · exact same
    · exact absurd step (single.final accepts)
  · rcases further.cases_head with same | ⟨_, step, _⟩
    · exact same.symm
    · exact absurd step (single.final accepts')

theorem Deterministic.accepts (single : a.Deterministic) {word : List (Symbol × V)} {t t' : Tree V}
    (one : a.Accepts word t) (two : a.Accepts word t') : t = t' := by
  obtain ⟨target, read, accepts⟩ := one
  obtain ⟨target', read', accepts'⟩ := two
  have same := single.end read read' accepts accepts'
  simp only [Reading.mk.injEq, Frames.push.injEq] at same
  exact same.1.2.1

end Automaton

theorem Tree.leavesKnown {V : Type} {g : Grammar} (t : Tree V) :
    ∀ x, t.Derives g x → (isTerminal x = true → x ∈ g.terminals) → ∀ leaf ∈ t.leaves, leaf.1 ∈ g.terminals := by
  induction t using childInduction with
  | leaf symbol value =>
    intro x derived known leaf inside
    obtain ⟨rfl, terminal⟩ := derivesLeaf.1 derived
    rw [leaves, List.mem_singleton] at inside
    rw [inside]
    exact known terminal
  | node id children ih =>
    intro x derived _ leaf inside
    obtain ⟨p, found, _, below⟩ := derivesNode.1 derived
    rw [leaves] at inside
    obtain ⟨child, member, inside⟩ := List.mem_flatMap.1 inside
    obtain ⟨y, used, derived⟩ := (forallMem below).2 child member
    refine ih child member y derived (fun terminal => ?_) leaf inside
    exact Grammar.memTerminals.2 (.inr ⟨terminal, p, List.mem_of_getElem? found, used⟩)

namespace Automaton
variable {V : Type}

theorem conflictFreeUnambiguous {g : Grammar} {config : TableConfig} {a : Automaton} (built : g.Built)
    (table : build g config = .ok a) (free : config.precedence = false) (calm : a.conflicts = [])
    {t t' : Tree V} (derives : t.Derives g g.start) (derives' : t'.Derives g g.start)
    (same : t.leaves = t'.leaves) (ordinary : ∀ leaf ∈ t.leaves, leaf.1 ≠ .error) : t = t' := by
  have trimmed := trimmedBuild built table
  have unresolved := unresolvedBuild built table (.inl free)
  have single := conflictsEmptyIff.1 calm
  obtain rfl : a.grammar = g := (buildSource table).1
  have start : isTerminal a.grammar.start = true → a.grammar.start ∈ a.grammar.terminals := by
    simp [built.wellFormed.startNonterminal]
  have readable : a.Readable t.leaves := fun leaf inside =>
    ⟨t.leavesKnown _ derives start leaf inside, ordinary leaf inside⟩
  have one := treeAccepted trimmed unresolved derives readable
  have two := treeAccepted trimmed unresolved derives' (same ▸ readable)
  exact single.accepts one (same ▸ two)

theorem leftSumsUnambiguous :
    ∃ g a, ParserDraft.leftSums.grammar.build = .ok g ∧ build g ⟨true, false⟩ = .ok a ∧ a.conflicts = [] ∧
      ∃ t : Tree Unit, t.Derives g g.start ∧ t.leaves.map (a.name ·.1) = ["N", "PLUS", "N", "PLUS", "N"] ∧
        ∀ t' : Tree Unit, t'.Derives g g.start → t'.leaves = t.leaves → t' = t := by
  have ran : (ParserDraft.leftSums.grammar.build.toOption.any fun g =>
      (build g ⟨true, false⟩).toOption.any fun a => decide (a.conflicts = []) &&
        decide (g.start = ⟨3, .nonterminal⟩) && decide (a.name ⟨6, .terminal⟩ = "N") &&
        decide (a.name ⟨4, .terminal⟩ = "PLUS")) = true := by decide +kernel
  obtain ⟨g, finished, ran⟩ := okOfAny ran
  obtain ⟨a, table, ran⟩ := okOfAny ran
  simp only [Bool.and_eq_true, decide_eq_true_eq] at ran
  obtain ⟨⟨⟨calm, start⟩, number⟩, plus⟩ := ran
  have listed := ParserDraft.leftSumsProductions finished
  have operand : (Tree.node 2 [.leaf ⟨6, .terminal⟩ ()] : Tree Unit).Derives g ⟨5, .nonterminal⟩ :=
    .node (p := ⟨⟨5, .nonterminal⟩, [⟨6, .terminal⟩]⟩) (by simp [listed]) (.cons (.leaf rfl) .nil)
  have first : (Tree.node 1 [.node 2 [.leaf ⟨6, .terminal⟩ ()]] : Tree Unit).Derives g ⟨3, .nonterminal⟩ :=
    .node (p := ⟨⟨3, .nonterminal⟩, [⟨5, .nonterminal⟩]⟩) (by simp [listed]) (.cons operand .nil)
  have add {t : Tree Unit} (before : t.Derives g ⟨3, .nonterminal⟩) :
      (Tree.node 0 [t, .leaf ⟨4, .terminal⟩ (), .node 2 [.leaf ⟨6, .terminal⟩ ()]]).Derives g ⟨3, .nonterminal⟩ :=
    .node (p := ⟨⟨3, .nonterminal⟩, [⟨3, .nonterminal⟩, ⟨4, .terminal⟩, ⟨5, .nonterminal⟩]⟩)
      (by simp [listed]) (.cons before (.cons (.leaf rfl) (.cons operand .nil)))
  have derives := add (add first)
  rw [← start] at derives
  refine ⟨g, a, finished, table, calm, _, derives, by simp [Tree.leaves, number, plus], ?_⟩
  intro t' derives' same
  refine (conflictFreeUnambiguous ⟨_, finished⟩ table rfl calm derives derives' same.symm ?_).symm
  simp [Tree.leaves, Symbol.error]

end Automaton
end ForkingLR
