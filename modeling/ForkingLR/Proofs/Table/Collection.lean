import ForkingLR.Proofs.Table.Expected
import ForkingLR.Proofs.Table.Rows
import Mathlib.Computability.EpsilonNFA

/-! The LR(0) states are the canonical collection. A word leads to the state of the items that the
automaton of items can be in after it, each such set is one state, and the rows hold the moves and
completions of their state and nothing else. -/
namespace ForkingLR

namespace Grammar
open Table
variable {g : Grammar}

/-- Items as states: the dot moves over the symbol behind it, or the productions of that symbol are
begun in silence. -/
def itemNfa (g : Grammar) : εNFA Symbol Item where
  step
    | i, some x => {j | i.next? g.productions = some x ∧ j = i.advance}
    | i, none => {j | ∃ id p, g.productions[id]? = some p ∧ i.next? g.productions = some p.lhs ∧ j = ⟨id, 0⟩}
  start := {⟨g.startProduction, 0⟩}
  accept := Set.univ

theorem evalShift {word : List Symbol} {i : Item} {x : Symbol} (h : i ∈ g.itemNfa.eval word)
    (next : i.next? g.productions = some x) : i.advance ∈ g.itemNfa.eval (word ++ [x]) := by
  rw [εNFA.eval_append_singleton, εNFA.mem_stepSet_iff]
  exact ⟨i, h, .base _ ⟨next, rfl⟩⟩

theorem evalPredict {word : List Symbol} {i : Item} {id : Nat} {p : Production Symbol}
    (h : i ∈ g.itemNfa.eval word) (next : i.next? g.productions = some p.lhs)
    (found : g.productions[id]? = some p) : ⟨id, 0⟩ ∈ g.itemNfa.eval word := by
  have silent : ⟨id, 0⟩ ∈ g.itemNfa.step i none := ⟨id, p, found, next, rfl⟩
  rcases List.eq_nil_or_concat word with rfl | ⟨word, x, rfl⟩
  · exact εNFA.εClosure.step _ _ silent h
  · rw [List.concat_eq_append, εNFA.eval_append_singleton, εNFA.mem_stepSet_iff] at h ⊢
    obtain ⟨j, before, closure⟩ := h
    exact ⟨j, before, εNFA.εClosure.step _ _ silent closure⟩

theorem holdsAt {states : List State} {s : Nat} {st : State} (placed : states[s]? = some st) {i : Item} :
    Holds states s i ↔ i ∈ st.items := by
  constructor
  · intro h
    obtain ⟨st', placed', member⟩ := h
    obtain rfl := Option.some.inj (placed.symm.trans placed')
    exact member
  · exact fun member => ⟨st, placed, member⟩

theorem statesItems : g.lr0States.map State.items = g.collection := by
  simp [lr0States, Function.comp_def, stateOfItems]

structure Canonical (g : Grammar) (states : List State) : Prop where
  walks : ∀ word, (∃ s, g.walk states 0 word = .ok s) ↔ (g.itemNfa.eval word).Nonempty
  items : ∀ word s, g.walk states 0 word = .ok s →
    ∃ st, states[s]? = some st ∧ ∀ i, i ∈ st.items ↔ i ∈ g.itemNfa.eval word
  named : ∀ st ∈ states, ∀ x t, st.transitions.get? x = some t →
    states[t]?.map State.items = some (g.gotoItems st.items x)
  reached : ∀ s st, states[s]? = some st → ∃ word, g.walk states 0 word = .ok s
  sorted : ∀ st ∈ states, st.items.Pairwise fun i j => compare i j = .lt
  distinct : ∀ (s s' : Nat) (st st' : State), states[s]? = some st → states[s']? = some st' →
    (∀ i, i ∈ st.items ↔ i ∈ st'.items) → s = s'
  shifts : ∀ st ∈ states, ∀ x t,
    .shift t ∈ st.actionsOn x ↔ isTerminal x = true ∧ st.transitions.get? x = some t
  gotos : ∀ st ∈ states, ∀ x t,
    .goto t ∈ st.actionsOn x ↔ isTerminal x = false ∧ st.transitions.get? x = some t
  accepts : ∀ st ∈ states, ∀ x,
    .accept ∈ st.actionsOn x ↔ x = .endOfInput ∧ ⟨g.startProduction, 1⟩ ∈ st.items
  accepting : ∃! s, Holds states s ⟨g.startProduction, 1⟩
  reduces : ∀ st ∈ states, ∀ x id, .reduce id ∈ st.actionsOn x ↔
    x ∈ g.terminals ∧ x ≠ .error ∧ id ≠ g.startProduction ∧
      ∃ p, g.productions[id]? = some p ∧ ⟨id, p.rhs.length⟩ ∈ st.items
  nodup : ∀ st ∈ states, ∀ x, (st.actionsOn x).Nodup

section
variable (wf : g.WellFormed)
include wf

theorem leadsIff {word : List Symbol} {i : Item} : g.Leads word i ↔ i ∈ g.itemNfa.eval word := by
  constructor
  · intro h
    obtain ⟨s, walked, held⟩ := h
    exact itemInduction (R := fun word i => i ∈ g.itemNfa.eval word) wf (.base _ rfl) evalShift evalPredict
      walked held
  · -- The induction is on the word, and inside it on what is begun in silence.
    induction word using List.reverseRecOn generalizing i with
    | nil =>
      intro h
      induction h with
      | base i first =>
        obtain rfl : i = ⟨g.startProduction, 0⟩ := first
        exact ⟨0, rfl, holdsStart wf⟩
      | step i j silent _ ih =>
        obtain ⟨id, p, found, next, rfl⟩ := silent
        exact ih.closed wf next found
    | append_singleton word x ih =>
      intro h
      rw [εNFA.eval_append_singleton, εNFA.mem_stepSet_iff] at h
      obtain ⟨k, before, closure⟩ := h
      induction closure with
      | base i moved =>
        obtain ⟨next, rfl⟩ := moved
        exact (ih before).advance wf next
      | step i j silent _ ih =>
        obtain ⟨id, p, found, next, rfl⟩ := silent
        exact ih.closed wf next found

theorem walkInhabited {word : List Symbol} {s : Nat} (walked : g.walk g.lr0States 0 word = .ok s) :
    ∃ i, Holds g.lr0States s i := by
  rcases List.eq_nil_or_concat word with rfl | ⟨word, x, rfl⟩
  · cases walked
    exact ⟨_, holdsStart wf⟩
  · rw [List.concat_eq_append] at walked
    obtain ⟨mid, _, last⟩ := walkAppend.1 walked
    obtain ⟨i, held, next⟩ := nextOfMoves wf (walkSingle.1 last)
    exact ⟨_, holdsAdvance wf (walkSingle.1 last) held next⟩

theorem walkItems {word : List Symbol} {s : Nat} (walked : g.walk g.lr0States 0 word = .ok s) :
    ∃ st, g.lr0States[s]? = some st ∧ ∀ i, i ∈ st.items ↔ i ∈ g.itemNfa.eval word := by
  obtain ⟨_, st, placed, _⟩ := walkInhabited wf walked
  refine ⟨st, placed, fun i => ?_⟩
  rw [← leadsIff wf]
  constructor
  · exact fun member => ⟨s, walked, st, placed, member⟩
  · intro h
    obtain ⟨s', walked', st', placed', member⟩ := h
    obtain rfl := Except.ok.inj (walked.symm.trans walked')
    obtain rfl := Option.some.inj (placed.symm.trans placed')
    exact member

theorem walksIff {word : List Symbol} :
    (∃ s, g.walk g.lr0States 0 word = .ok s) ↔ (g.itemNfa.eval word).Nonempty := by
  constructor
  · intro h
    obtain ⟨s, walked⟩ := h
    obtain ⟨i, held⟩ := walkInhabited wf walked
    exact ⟨i, (leadsIff wf).1 ⟨s, walked, held⟩⟩
  · intro h
    obtain ⟨i, inside⟩ := h
    obtain ⟨s, walked, _⟩ := (leadsIff wf).2 inside
    exact ⟨s, walked⟩

theorem moveNamed {s t : Nat} {st : State} {x : Symbol} (placed : g.lr0States[s]? = some st)
    (move : st.transitions.get? x = some t) :
    g.lr0States[t]?.map State.items = some (g.gotoItems st.items x) := by
  obtain ⟨items, found, _, goto⟩ := (movesIff wf).1 ((movesAt placed).1 move)
  obtain ⟨items', found', rfl⟩ := stateAt.1 placed
  obtain rfl := Option.some.inj (found.symm.trans found')
  rw [← List.getElem?_map, statesItems, stateOfItems, goto]

theorem stateSorted {s : Nat} {st : State} (placed : g.lr0States[s]? = some st) :
    st.items.Pairwise fun i j => compare i j = .lt := by
  obtain ⟨items, found, rfl⟩ := stateAt.1 placed
  rw [stateOfItems]
  exact itemsSorted wf found

theorem statesDistinct {s s' : Nat} {st st' : State} (placed : g.lr0States[s]? = some st)
    (placed' : g.lr0States[s']? = some st') (same : ∀ i, i ∈ st.items ↔ i ∈ st'.items) : s = s' := by
  have equal := SortedSet.eqOfMembers (stateSorted wf placed) (stateSorted wf placed') same
  obtain ⟨items, found, rfl⟩ := stateAt.1 placed
  obtain ⟨items', found', rfl⟩ := stateAt.1 placed'
  rw [stateOfItems, stateOfItems] at equal
  subst equal
  exact (List.getElem?_inj (List.getElem?_eq_some_iff.1 found).1 collectionNodup).1 (found.trans found'.symm)

theorem acceptingUnique : ∃! s, Holds g.lr0States s ⟨g.startProduction, 1⟩ := by
  have next : Item.next? g.productions ⟨g.startProduction, 0⟩ = some g.start :=
    Item.nextIff.2 ⟨_, wf.startProduction, rfl⟩
  obtain ⟨s, move⟩ := movesOfNext wf (holdsStart wf) next
  refine ⟨s, holdsAdvance wf move (holdsStart wf) next, ?_⟩
  intro s' held
  obtain ⟨r, x, move'⟩ := stateEntered wf held
  obtain ⟨begun, next'⟩ := holdsBack wf move' held
  obtain rfl := startStateOnly wf begun
  obtain rfl := Option.some.inj (next.symm.trans next')
  exact movesUnique move' move

theorem canonicalStates : g.Canonical g.lr0States := by
  have placed {st : State} (member : st ∈ g.lr0States) : ∃ s, g.lr0States[s]? = some st :=
    List.mem_iff_getElem?.1 member
  refine ⟨fun _ => walksIff wf, fun _ _ => walkItems wf, ?_, ?_, ?_, fun _ _ _ _ => statesDistinct wf, ?_, ?_, ?_,
    acceptingUnique wf, ?_, ?_⟩
  · intro st member x t move
    obtain ⟨s, found⟩ := placed member
    exact moveNamed wf found move
  · intro s st found
    obtain ⟨items, listed, _⟩ := stateAt.1 found
    exact stateReached wf listed
  · intro st member
    obtain ⟨s, found⟩ := placed member
    exact stateSorted wf found
  · intro st member x t
    obtain ⟨s, found⟩ := placed member
    rw [actionsOffered wf found, movesAt found]
    constructor
    · intro h
      cases h with
      | shift terminal move => exact ⟨terminal, move⟩
    · exact fun h => .shift h.1 h.2
  · intro st member x t
    obtain ⟨s, found⟩ := placed member
    rw [actionsOffered wf found, movesAt found]
    constructor
    · intro h
      cases h with
      | goto nonterminal move => exact ⟨nonterminal, move⟩
    · exact fun h => .goto h.1 h.2
  · intro st member x
    obtain ⟨s, found⟩ := placed member
    rw [actionsOffered wf found, ← holdsAt found]
    constructor
    · intro h
      cases h with
      | accept last complete => exact ⟨last, complete⟩
    · exact fun h => .accept h.1 h.2
  · intro st member x id
    obtain ⟨s, found⟩ := placed member
    simp only [actionsOffered wf found, ← holdsAt found]
    constructor
    · intro h
      cases h with
      | reduce known ordinary other listed complete => exact ⟨known, ordinary, other, _, listed, complete⟩
    · intro h
      obtain ⟨known, ordinary, other, p, listed, complete⟩ := h
      exact .reduce known ordinary other listed complete
  · intro st member x
    obtain ⟨s, found⟩ := placed member
    exact actionsNodup wf found x

end

theorem collectionCanonical (built : g.Built) :
    Reach.Exhausts g.successors [] [g.initialItems] (g.lr0States.map State.items) ∧
    (∀ items, Reach.Exhausts g.leftCorners [] (g.awaited items).eraseDups (g.predicted items)) ∧
    g.Canonical g.lr0States := by
  rw [statesItems]
  exact ⟨collectionExhausts built.wellFormed, predictedExhausts built.wellFormed,
    canonicalStates built.wellFormed⟩

theorem sumsCanonical : ∃ g, (Draft.ofCalls Draft.sumCalls).build = .ok g ∧ g.Canonical g.lr0States := by
  obtain ⟨g, built⟩ := Draft.sumsBuilt
  exact ⟨g, built, (collectionCanonical ⟨_, built⟩).2.2⟩

end Grammar
end ForkingLR
