import ForkingLR.Parser
import ForkingLR.Proofs.Automaton
import ForkingLR.Proofs.Engine.Visits
import ForkingLR.Proofs.Table.Canonical

/-! The states of a stack are a path through the table. A completed item on top is spelled by the
frames above the state it began in, so a reduction always finds its right-hand side and a move
under its left-hand side, and no run meets a fault. -/
namespace ForkingLR

namespace Frames
variable {V : Type}

theorem topValuesLength {count : Nat} :
    ∀ {frames : Frames V} (values : List V), frames.covers count = true →
      (frames.topValues count values).length = count + values.length := by
  induction count with
  | zero => simp [topValues]
  | succ count ih =>
    intro frames values covers
    cases frames with
    | bottom => cases covers
    | push state value below =>
      rw [topValues, ih _ covers, List.length_cons]
      omega

end Frames

namespace Recovery
variable {V : Type}

def settleTimes (r : Recovery V) (production : Nat) : Nat → Recovery V
  | 0 => r
  | count + 1 => { r with
      pending := none
      recovered := r.recovered ++
        ⟨production, r.pending.getD []⟩ :: List.replicate count ⟨production, []⟩ }

theorem skipRecovered (r : Recovery V) (token : Token V) :
    (r.skip token).recovered = [] ↔ r.recovered = [] := by
  unfold skip
  split
  · rfl
  · unfold appendToLast
    split <;> simp_all

theorem settleTimesSucc [SemanticValue V] (r : Recovery V) (production count : Nat) :
    (r.settle production).2.settleTimes production count = r.settleTimes production (count + 1) := by
  cases count with
  | zero => rfl
  | succ count => simp [settle, settleTimes, List.replicate_succ]

end Recovery

namespace Automaton
open Table
variable {V : Type} {a : Automaton}

/-- The frames follow the moves of the table from state 0; the symbols moved over, the topmost
first. -/
inductive Spells (a : Automaton) : Frames V → List Symbol → Prop
  | bottom : Spells a .bottom []
  | push {frames : Frames V} {word : List Symbol} {x : Symbol} {target : Nat} {value : V}
      (below : Spells a frames word) (move : Moves a.states frames.state x target) :
      Spells a (.push target value frames) (x :: word)

theorem Spells.covers {word : List Symbol} :
    ∀ {top : List Symbol} {frames : Frames V}, a.Spells frames (top ++ word) →
      frames.covers top.length = true ∧ a.Spells (frames.drop top.length) word := by
  intro top
  induction top with
  | nil => exact fun h => ⟨by simp [Frames.covers], h⟩
  | cons x top ih =>
    intro frames h
    cases h with
    | push below move => exact ih below

theorem Spells.drop {count : Nat} :
    ∀ {frames : Frames V} {word : List Symbol}, a.Spells frames word → frames.covers count = true →
      a.Spells (frames.drop count) (word.drop count) := by
  induction count with
  | zero => exact fun h _ => h
  | succ count ih =>
    intro frames word h covers
    cases h with
    | bottom => cases covers
    | push below move => exact ih below covers

theorem Spells.walk (trimmed : a.Trimmed) {frames : Frames V} {word : List Symbol}
    (h : a.Spells frames word) :
    a.grammar.walk a.grammar.lr0States 0 word.reverse = .ok frames.state := by
  induction h with
  | bottom => rfl
  | push below move ih =>
    rw [List.reverse_cons]
    exact Grammar.walkAppend.2 ⟨_, ih, Grammar.walkSingle.2 (trimmed.moves.1 move)⟩

theorem Trimmed.spelled (trimmed : a.Trimmed) {id : Nat} {p : Production Symbol}
    (found : a.grammar.productions[id]? = some p) :
    ∀ {dot : Nat} {frames : Frames V} {word : List Symbol}, a.Spells frames word →
      Holds a.states frames.state ⟨id, dot⟩ →
      ∃ under, word = (p.rhs.take dot).reverse ++ under ∧
        Holds a.states (frames.drop dot).state ⟨id, 0⟩ := by
  intro dot
  -- One frame comes off for each symbol before the dot.
  induction dot with
  | zero =>
    intro frames word _ item
    exact ⟨word, by simp, item⟩
  | succ dot ih =>
    intro frames word spells item
    cases spells with
    | bottom => cases Grammar.startStateFresh trimmed.wellFormed (trimmed.holds.1 item)
    | @push frames word x target value below move =>
      obtain ⟨earlier, next⟩ := Grammar.holdsBack trimmed.wellFormed (trimmed.moves.1 move)
        (trimmed.holds.1 item)
      obtain ⟨q, found', here⟩ := Item.nextIff.1 next
      obtain rfl : p = q := Option.some.inj (found.symm.trans found')
      obtain ⟨under, spelled, origin⟩ := ih below (trimmed.holds.2 earlier)
      refine ⟨under, ?_, origin⟩
      have grown : p.rhs.take (dot + 1) = p.rhs.take dot ++ [x] := by
        rw [List.take_add_one, here, Option.toList_some]
      rw [grown, spelled, List.reverse_append, List.reverse_singleton, List.singleton_append,
        List.cons_append]

theorem terminalKey {kind : String} {x : Symbol} (h : a.terminal? kind = some x) :
    a.grammar.symbols.names.entries[x.key]? = some kind :=
  SymbolTable.lookupKey (Option.filter_eq_some_iff.1 h).1

theorem terminalReserved {kind name : String} {x : Symbol} (h : a.terminal? kind = some x)
    (first : ["EOS", "ERROR", "$start"][x.key]? = some name) : kind = name := by
  obtain ⟨rest, shape⟩ := a.grammar.symbols.reserved
  have key := terminalKey h
  rw [← shape, List.getElem?_append_left (List.getElem?_eq_some_iff.1 first).1, first] at key
  exact (Option.some.inj key).symm

theorem terminalEnd {kind : String} (h : a.terminal? kind = some .endOfInput) : kind = "EOS" :=
  terminalReserved h rfl

theorem terminalError {kind : String} (h : a.terminal? kind = some .error) : kind = "ERROR" :=
  terminalReserved h rfl

theorem Trimmed.shiftMoves (trimmed : a.Trimmed) {s t : Nat} {x : Symbol}
    (listed : .shift t ∈ a.actions s x) : Moves a.states s x t := by
  cases trimmed.offers listed with
  | shift _ move => exact trimmed.moves.2 move

theorem Trimmed.gotoFound (trimmed : a.Trimmed) {s t : Nat} {x : Symbol} (h : a.goto? s x = some t) :
    Moves a.states s x t := by
  obtain ⟨action, listed, target⟩ := List.exists_of_findSome?_eq_some h
  cases action with
  | goto t' =>
    obtain rfl := Option.some.inj target
    cases trimmed.offers listed with
    | goto _ move => exact trimmed.moves.2 move
  | shift => cases target
  | reduce => cases target
  | accept => cases target

theorem Trimmed.gotoOfMoves (trimmed : a.Trimmed) {s t : Nat} {x : Symbol}
    (nonterminal : isTerminal x = false) (move : Moves a.states s x t) : a.goto? s x = some t := by
  have some : (a.goto? s x).isSome := by
    rw [goto?, List.findSome?_isSome_iff]
    exact ⟨_, trimmed.gotos nonterminal move, rfl⟩
  obtain ⟨t', found⟩ := Option.isSome_iff_exists.1 some
  rw [found, movesUnique move (trimmed.gotoFound found)]

theorem Trimmed.gotoExists (trimmed : a.Trimmed) {s id : Nat} {p : Production Symbol}
    (found : a.grammar.productions[id]? = some p) (other : id ≠ a.grammar.startProduction)
    (begins : Holds a.states s ⟨id, 0⟩) : ∃ t, a.goto? s p.lhs = some t := by
  have wf := trimmed.wellFormed
  rcases Grammar.holdsOrigin wf (trimmed.holds.1 begins) found with ⟨_, same⟩ | ⟨i, held, next⟩
  · exact absurd same other
  · obtain ⟨t, move⟩ := Grammar.movesOfNext wf held next
    have nonterminal := wf.lhsNonterminal p (List.mem_of_getElem? found)
    exact ⟨t, trimmed.gotoOfMoves nonterminal (trimmed.moves.2 move)⟩

structure Ready (a : Automaton) (frames : Frames V) (production : Nat) (p : Production Symbol) : Prop where
  found : a.production? production = some p
  spelled : ∃ under, a.Spells frames (p.rhs.reverse ++ under)
  goto : ∃ target, a.goto? (frames.drop p.rhs.length).state p.lhs = some target

theorem Trimmed.ready (trimmed : a.Trimmed) {frames : Frames V} {word : List Symbol} {id : Nat}
    {terminal : Symbol} (spells : a.Spells frames word)
    (listed : .reduce id ∈ a.actions frames.state terminal) : ∃ p, a.Ready frames id p := by
  cases trimmed.offers listed with
  | @reduce _ p known ordinary other found complete =>
    obtain ⟨under, spelled, begins⟩ := trimmed.spelled found spells (trimmed.holds.2 complete)
    rw [List.take_length] at spelled
    exact ⟨p, found, ⟨under, spelled ▸ spells⟩, trimmed.gotoExists found other begins⟩

end Automaton

namespace Engine
open Table
variable {V : Type} {e : Engine V}

theorem reduceSource [SemanticValue V] {s after : Stack V} {id : Nat} (h : e.reduce s id = .ok after) :
    ∃ p reducer target, e.automaton.production? id = some p ∧ e.reducers[id]? = some reducer ∧
      s.frames.covers p.rhs.length = true ∧
      e.automaton.goto? (s.frames.drop p.rhs.length).state p.lhs = some target ∧
      after = { s with
        frames := .push target (reducer.apply e.argStyle
          (arguments id p.rhs (s.frames.topValues p.rhs.length []) s.recovery).1)
          (s.frames.drop p.rhs.length)
        recovery := (arguments id p.rhs (s.frames.topValues p.rhs.length []) s.recovery).2 } := by
  unfold reduce at h
  split at h
  · rename_i p reducer found made
    split at h
    · rename_i covers
      dsimp only at h
      split at h
      · contradiction
      · rename_i target goto
        exact ⟨p, reducer, target, found, made, covers, goto, (Except.ok.inj h).symm⟩
    · contradiction
  · contradiction

theorem settleErrorMode [SemanticValue V] (id : Nat) (rhs : List Symbol) (values : List V) (r : Recovery V) :
    (arguments id rhs values r).2.errorMode = r.errorMode := by
  have settled : (settleValues id rhs values r).2.errorMode = r.errorMode := by
    induction rhs generalizing values r with
    | nil => rfl
    | cons x rhs ih =>
      cases values with
      | nil => rfl
      | cons v values =>
        simp only [settleValues, ih]
        split <;> rfl
  unfold arguments
  split
  · exact settled
  · rfl

theorem argumentsSettled [SemanticValue V] (id : Nat) (rhs : List Symbol) (values : List V) (r : Recovery V)
    (same : values.length = rhs.length) :
    (arguments id rhs values r).2 = r.settleTimes id (rhs.count .error) := by
  have settled : (settleValues id rhs values r).2 = r.settleTimes id (rhs.count .error) := by
    induction rhs generalizing values r with
    | nil => cases values <;> rfl
    | cons x rhs ih =>
      cases values with
      | nil => cases same
      | cons v values =>
        have tail := ih values (if x = .error then r.settle id else (v, r)).2 (Nat.succ.inj same)
        rw [settleValues, tail]
        by_cases error : x = .error
        · simp [error, Recovery.settleTimesSucc]
        · simp [error]
  unfold arguments
  split
  · exact settled
  · rename_i ordinary
    simp only [List.contains_iff_mem] at ordinary
    rw [List.count_eq_zero.2 ordinary]
    rfl

theorem reduceReady [SemanticValue V] {s : Stack V} {id : Nat} {p : Production Symbol}
    (ready : e.automaton.Ready s.frames id p) (made : id < e.reducers.length) :
    ∃ after, e.reduce s id = .ok after := by
  obtain ⟨under, spells⟩ := ready.spelled
  obtain ⟨target, goto⟩ := ready.goto
  have covers := spells.covers.1
  rw [List.length_reverse] at covers
  simp only [reduce, ready.found, List.getElem?_eq_getElem made, covers, goto, if_true]
  exact ⟨_, rfl⟩

theorem errorTargetListed {state target : Nat} (h : e.errorTarget? state = some target) :
    .shift target ∈ e.automaton.actions state .error := by
  obtain ⟨action, listed, found⟩ := List.exists_of_findSome?_eq_some h
  cases action with
  | shift t =>
    obtain rfl := Option.some.inj found
    exact listed
  | goto => cases found
  | reduce => cases found
  | accept => cases found

theorem recoveryPointSource {frames under : Frames V} {target : Nat}
    (h : e.recoveryPoint? frames = some (under, target)) :
    ∃ count, frames.covers count = true ∧ frames.drop count = under ∧
      .shift target ∈ e.automaton.actions under.state .error := by
  induction frames with
  | bottom =>
    obtain ⟨t, found, same⟩ := Option.map_eq_some_iff.1 h
    cases same
    exact ⟨0, rfl, rfl, errorTargetListed found⟩
  | push state value below ih =>
    unfold recoveryPoint? at h
    split at h
    · rename_i t found
      cases h
      exact ⟨0, rfl, rfl, errorTargetListed found⟩
    · obtain ⟨count, covers, same, listed⟩ := ih h
      exact ⟨count + 1, covers, same, listed⟩

theorem recoverSource [Inhabited V] {m : Moment V} {s after : Stack V}
    (h : e.recover? m s = some after) :
    ∃ count target, s.frames.covers count = true ∧
      .shift target ∈ e.automaton.actions (s.frames.drop count).state .error ∧
      after = { s with
        frames := .push target default (s.frames.drop count)
        recovery := s.recovery.enter m.index } := by
  obtain ⟨⟨under, target⟩, point, same⟩ := Option.bind_eq_some_iff.1 h
  obtain ⟨count, covers, rfl, listed⟩ := recoveryPointSource point
  exact ⟨count, target, covers, listed, (Option.some.inj same).symm⟩

end Engine

namespace Engine
variable {V : Type} [SemanticValue V] {e : Engine V}

theorem spellsPreserved (trimmed : e.automaton.Trimmed)
    (made : e.reducers.length = e.automaton.grammar.size) {m : Moment V}
    (known : e.automaton.terminal? m.token.kind = some m.terminal) :
    Round.Preserves e m (fun s => ∃ word, e.automaton.Spells s.frames word)
      (fun s => ∃ word, e.automaton.Spells s.frames word) (fun _ => True) (fun _ => False) where
  fork := fun _ _ h => h
  shift := by
    rintro s target ⟨word, spells⟩ listed
    exact ⟨_, .push spells (trimmed.shiftMoves listed)⟩
  reduce := by
    rintro s id after ⟨word, spells⟩ listed reduced
    obtain ⟨p, _, target, _, _, covers, goto, rfl⟩ := reduceSource reduced
    exact ⟨_, .push (spells.drop covers) (trimmed.gotoFound goto)⟩
  fails := by
    rintro s id f ⟨word, spells⟩ listed failed
    obtain ⟨p, ready⟩ := trimmed.ready spells listed
    have bound : id < e.reducers.length := by
      rw [made]
      exact (List.getElem?_eq_some_iff.1 ready.found).1
    obtain ⟨after, reduced⟩ := reduceReady (s := s.countReduction) ready bound
    rw [reduced] at failed
    contradiction
  accept := fun _ _ _ => trivial
  goto := by
    intro s target _ listed
    cases trimmed.offers listed with
    | goto nonterminal _ =>
      have terminal := Grammar.isTerminalOfMem (Automaton.terminalMember known)
      rw [terminal] at nonterminal
      contradiction
  skip := fun _ h _ _ => h
  recover := by
    rintro s after ⟨word, spells⟩ _ _ recovered
    obtain ⟨count, target, covers, listed, rfl⟩ := recoverSource recovered
    exact ⟨_, .push (spells.drop covers) (trimmed.shiftMoves listed)⟩

end Engine

namespace ParserDraft
variable {V : Type}

theorem reducersLength (d : ParserDraft V) (g : Grammar) : (d.reducers g).length = g.size := by
  simp only [reducers, resize, List.length_mapIdx, List.length_append, List.length_take,
    List.length_replicate]
  omega

theorem finalizeSource {d : ParserDraft V} {config : TableConfig} {p : Parser V}
    (h : d.finalize config = .ok p) :
    ∃ g a, d.grammar.build = .ok g ∧ Automaton.build g config = .ok a ∧ p = d.toParser g a := by
  unfold finalize at h
  cases built : d.grammar.build with
  | error fault => simp [built, bind, Except.bind] at h
  | ok g =>
    cases table : Automaton.build g config with
    | error fault => simp [built, table, bind, Except.bind] at h
    | ok a =>
      simp only [built, table, bind, Except.bind, pure, Except.pure, Except.ok.injEq] at h
      exact ⟨g, a, rfl, table, h.symm⟩

def sums : ParserDraft Value where
  grammar := .ofCalls Draft.sumCalls

theorem sumsFinalized : ∃ p, sums.finalize {} = .ok p := okOfIsOk (by decide +kernel)

def plainSums : ParserDraft Value where
  grammar := .ofCalls [.declare "e" ["e", "PLUS", "e"], .declare "e" ["N"]]

def leftSums : ParserDraft Value where
  grammar := .ofCalls [.declare "e" ["e", "PLUS", "t"], .declare "e" ["t"], .declare "t" ["N"]]

theorem leftSumsProductions {g : Grammar} (finished : leftSums.grammar.build = .ok g) :
    g.productions =
      [⟨⟨3, .nonterminal⟩, [⟨3, .nonterminal⟩, ⟨4, .terminal⟩, ⟨5, .nonterminal⟩]⟩,
        ⟨⟨3, .nonterminal⟩, [⟨5, .nonterminal⟩]⟩, ⟨⟨5, .nonterminal⟩, [⟨6, .terminal⟩]⟩,
        ⟨.augmentedStart, [⟨3, .nonterminal⟩]⟩] := by
  have listed : leftSums.grammar.build.toOption.map Grammar.productions = some
      [⟨⟨3, .nonterminal⟩, [⟨3, .nonterminal⟩, ⟨4, .terminal⟩, ⟨5, .nonterminal⟩]⟩,
        ⟨⟨3, .nonterminal⟩, [⟨5, .nonterminal⟩]⟩, ⟨⟨5, .nonterminal⟩, [⟨6, .terminal⟩]⟩,
        ⟨.augmentedStart, [⟨3, .nonterminal⟩]⟩] := by decide +kernel
  simpa [finished, Except.toOption] using listed

end ParserDraft

def straySum : List (Token Value) :=
  [{ kind := "N" }, { kind := "PLUS" }, { kind := "N" }, { kind := "N" }, { kind := "PLUS" }]

def Round.Carries {V : Type} (r : Round V) (s : Stack V) : Prop :=
  r.hand = some s ∨ s ∈ r.waiting.toList ∨ s ∈ r.moved.toList

namespace Engine
variable {V : Type} [SemanticValue V]

theorem runNeverFaults {g : Grammar} {config : TableConfig} (built : g.Built) (e : Engine V)
    (table : Automaton.build g config = .ok e.automaton) (d : ParserDraft V)
    (made : e.reducers = d.reducers g) (tokens : List (Token V)) :
    (∀ fault, (e.run tokens).result ≠ .error (.internal fault)) ∧
      ∀ seen m rest r, e.Visits tokens seen m rest r →
        (∀ s, r.Carries s → ∃ word, e.automaton.Spells s.frames word) ∧
        ∀ s id, r.hand = some s → .reduce id ∈ r.todo → ∃ p, e.automaton.Ready s.frames id p := by
  have trimmed := Automaton.trimmedBuild built table
  have same : e.automaton.grammar = g := (Automaton.buildSource table).1
  have keeps {seen m rest r} (h : e.Visits tokens seen m rest r) :=
    h.keeps (I := fun _ s => ∃ word, e.automaton.Spells s.frames word) ⟨[], .bottom⟩
      (fun _ _ h => h) fun placed =>
        spellsPreserved trimmed (by rw [made, d.reducersLength, same]) placed.known
  constructor
  · intro fault failed
    have ends := runEnds e tokens
    rw [failed] at ends
    generalize answer : Except.error (Rejection.internal fault) = result at ends
    cases ends with
    | unknown => cases answer
    | faulty visited found => exact (keeps visited).fault _ found
    | done visited =>
      unfold exhausted at answer
      split at answer <;> cases answer
  · intro seen m rest r visited
    have kept := keeps visited
    constructor
    · rintro s (held | waits | moved)
      · exact (kept.hand s held).1
      · exact kept.waiting s waits
      · exact kept.moved s moved
    · intro s id held pending
      obtain ⟨⟨word, spells⟩, listed⟩ := kept.hand s held
      exact trimmed.ready spells (listed pending)

theorem sumsNeverFault :
    ∃ p, ParserDraft.sums.finalize {} = .ok p ∧
      ∀ mode tokens fault, ((p.engine mode).run tokens).result ≠ .error (.internal fault) := by
  obtain ⟨p, finished⟩ := ParserDraft.sumsFinalized
  obtain ⟨g, a, built, table, rfl⟩ := ParserDraft.finalizeSource finished
  refine ⟨_, finished, ?_⟩
  intro mode tokens
  exact (runNeverFaults ⟨_, built⟩ _ table ParserDraft.sums rfl tokens).1

end Engine
end ForkingLR
