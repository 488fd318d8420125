import ForkingLR.Proofs.Table.Items

/-! The LR(0) states as a graph: which items a state holds, where it moves, and what stands in
its rows. These are the facts about the construction that later proofs go through. -/
namespace ForkingLR

namespace State

@[simp]
theorem setRowItems (s : State) (x : Symbol) (row : List Action) : (s.setRow x row).items = s.items := by
  unfold setRow
  split <;> rfl

@[simp]
theorem setRowTransitions (s : State) (x : Symbol) (row : List Action) :
    (s.setRow x row).transitions = s.transitions := by
  unfold setRow
  split <;> rfl

theorem setRowActions (s : State) (x y : Symbol) (row : List Action) :
    (s.setRow x row).actionsOn y = if y = x then row else s.actionsOn y := by
  unfold setRow actionsOn
  rw [SortedMap.getDOfGet, SortedMap.getDOfGet]
  split
  · rename_i none
    rw [SortedMap.getErase]
    split
    · simpa using none.symm
    · rfl
  · rw [SortedMap.getInsert]
    split <;> rfl

section
variable (f : Symbol → List Action) (l : List Symbol) (s : State)

theorem fillItems : (l.foldl (fun s x => s.setRow x (f x)) s).items = s.items := by
  induction l generalizing s with
  | nil => rfl
  | cons x l ih => rw [List.foldl_cons, ih, setRowItems]

theorem fillTransitions : (l.foldl (fun s x => s.setRow x (f x)) s).transitions = s.transitions := by
  induction l generalizing s with
  | nil => rfl
  | cons x l ih => rw [List.foldl_cons, ih, setRowTransitions]

theorem fillActions (y : Symbol) :
    (l.foldl (fun s x => s.setRow x (f x)) s).actionsOn y = if y ∈ l then f y else s.actionsOn y := by
  induction l generalizing s with
  | nil => simp
  | cons x l ih =>
    rw [List.foldl_cons, ih, setRowActions]
    by_cases inside : y ∈ l
    · simp [inside]
    · by_cases same : y = x <;> simp [inside, same]

end

theorem actionsOnEntry {s : State} {row : Symbol × List Action} (h : row ∈ s.rows.entries) :
    s.actionsOn row.1 = row.2 := by
  rw [actionsOn, SortedMap.getDOfGet, SortedMap.getSomeIff.2 h, Option.getD_some]

end State

namespace Table

def Holds (states : List State) (s : Nat) (i : Item) : Prop :=
  ∃ st, states[s]? = some st ∧ i ∈ st.items

def Moves (states : List State) (s : Nat) (x : Symbol) (t : Nat) : Prop :=
  ∃ st, states[s]? = some st ∧ st.transitions.get? x = some t

theorem movesUnique {states : List State} {s t t' : Nat} {x : Symbol} (h : Moves states s x t)
    (h' : Moves states s x t') : t = t' := by
  obtain ⟨st, found, move⟩ := h
  obtain ⟨st', found', move'⟩ := h'
  obtain rfl : st = st' := Option.some.inj (found.symm.trans found')
  exact Option.some.inj (move.symm.trans move')

end Table

namespace Grammar
open Table
variable {g : Grammar}

theorem stateOfItems (sets : List (List Item)) (items : List Item) :
    (g.stateOf sets items).items = items := State.fillItems _ _ _

theorem stateOfTransitions (sets : List (List Item)) (items : List Item) :
    (g.stateOf sets items).transitions = g.transitionsOf sets items := State.fillTransitions _ _ _

theorem stateAt {s : Nat} {st : State} :
    g.lr0States[s]? = some st ↔
      ∃ items, g.collection[s]? = some items ∧ g.stateOf g.collection items = st := by
  simp [lr0States]

theorem holdsIff {s : Nat} {i : Item} :
    Holds g.lr0States s i ↔ ∃ items, g.collection[s]? = some items ∧ i ∈ items := by
  simp only [Holds, stateAt]
  constructor
  · rintro ⟨_, ⟨items, found, rfl⟩, h⟩
    rw [stateOfItems] at h
    exact ⟨items, found, h⟩
  · rintro ⟨items, found, h⟩
    refine ⟨_, ⟨items, found, rfl⟩, ?_⟩
    rw [stateOfItems]
    exact h

theorem movesIff (wf : g.WellFormed) {s t : Nat} {x : Symbol} :
    Moves g.lr0States s x t ↔ ∃ items, g.collection[s]? = some items ∧ x ∈ g.nextSymbols items ∧
      g.collection[t]? = some (g.gotoItems items x) := by
  have target {items : List Item} (h : items ∈ g.collection) (next : x ∈ g.nextSymbols items) :
      g.collection.idxOf (g.gotoItems items x) = t ↔
        g.collection[t]? = some (g.gotoItems items x) := by
    have member := gotoMemCollection wf h next
    constructor
    · rintro rfl
      exact List.getElem?_idxOf member
    · intro found
      obtain ⟨bound, here⟩ := List.getElem?_eq_some_iff.1 found
      rw [← here, collectionNodup.idxOf_getElem t bound]
  simp only [Moves, stateAt]
  constructor
  · rintro ⟨_, ⟨items, found, rfl⟩, move⟩
    rw [stateOfTransitions, transitionsOf, SortedMap.getOfGraph] at move
    split at move <;> try contradiction
    rename_i next
    exact ⟨items, found, next, (target (List.mem_of_getElem? found) next).1 (Option.some.inj move)⟩
  · rintro ⟨items, found, next, goto⟩
    refine ⟨_, ⟨items, found, rfl⟩, ?_⟩
    rw [stateOfTransitions, transitionsOf, SortedMap.getOfGraph, if_pos next,
      (target (List.mem_of_getElem? found) next).2 goto]

section
variable (wf : g.WellFormed)
include wf

theorem holdsStart : Holds g.lr0States 0 ⟨g.startProduction, 0⟩ :=
  holdsIff.2 ⟨_, collectionStart, (memCloseItems wf).2 (.kernel (List.mem_singleton.2 rfl))⟩

theorem holdsAdvance {s t : Nat} {x : Symbol} {i : Item} (move : Moves g.lr0States s x t)
    (h : Holds g.lr0States s i) (next : i.next? g.productions = some x) :
    Holds g.lr0States t i.advance := by
  obtain ⟨items, found, _, goto⟩ := (movesIff wf).1 move
  obtain ⟨items', found', member⟩ := holdsIff.1 h
  obtain rfl : items = items' := Option.some.inj (found.symm.trans found')
  exact holdsIff.2 ⟨_, goto, (memGotoItems wf).2 (.kernel (memMovedItems.2 ⟨i, member, next, rfl⟩))⟩

theorem movesOfNext {s : Nat} {x : Symbol} {i : Item} (h : Holds g.lr0States s i)
    (next : i.next? g.productions = some x) : ∃ t, Moves g.lr0States s x t := by
  obtain ⟨items, found, member⟩ := holdsIff.1 h
  have here : x ∈ g.nextSymbols items := memNextSymbols.2 ⟨i, member, next⟩
  have inside := gotoMemCollection wf (List.mem_of_getElem? found) here
  obtain ⟨t, goto⟩ := List.mem_iff_getElem?.1 inside
  exact ⟨t, (movesIff wf).2 ⟨items, found, here, goto⟩⟩

theorem nextOfMoves {s t : Nat} {x : Symbol} (move : Moves g.lr0States s x t) :
    ∃ i, Holds g.lr0States s i ∧ i.next? g.productions = some x := by
  obtain ⟨items, found, next, _⟩ := (movesIff wf).1 move
  obtain ⟨i, member, here⟩ := memNextSymbols.1 next
  exact ⟨i, holdsIff.2 ⟨items, found, member⟩, here⟩

theorem holdsBack {s t : Nat} {x : Symbol} {production dot : Nat} (move : Moves g.lr0States s x t)
    (h : Holds g.lr0States t ⟨production, dot + 1⟩) :
    Holds g.lr0States s ⟨production, dot⟩ ∧ Item.next? g.productions ⟨production, dot⟩ = some x := by
  obtain ⟨items, found, _, goto⟩ := (movesIff wf).1 move
  obtain ⟨items', goto', member⟩ := holdsIff.1 h
  obtain rfl : g.gotoItems items x = items' := Option.some.inj (goto.symm.trans goto')
  cases (memGotoItems wf).1 member with
  | kernel h =>
    obtain ⟨j, inside, next, same⟩ := memMovedItems.1 h
    obtain ⟨production', dot'⟩ := j
    cases same
    exact ⟨holdsIff.2 ⟨items, found, inside⟩, next⟩

theorem movesSymbol {s s' t : Nat} {x x' : Symbol}
    (move : Moves g.lr0States s x t) (move' : Moves g.lr0States s' x' t) : x = x' := by
  obtain ⟨i, held, next⟩ := nextOfMoves wf move
  obtain ⟨_, next'⟩ := holdsBack wf move' (holdsAdvance wf move held next)
  exact Option.some.inj (next.symm.trans next')

theorem inClosureOf {s : Nat} {i : Item} (h : Holds g.lr0States s i) :
    (s = 0 ∧ g.InClosure [⟨g.startProduction, 0⟩] i) ∨
      ∃ items x, g.InClosure (g.movedItems items x) i ∧
        ∀ j, g.InClosure (g.movedItems items x) j → Holds g.lr0States s j := by
  obtain ⟨items, found, member⟩ := holdsIff.1 h
  cases (memCollection wf).1 (List.mem_of_getElem? found) with
  | root start =>
    rw [List.mem_singleton.1 start] at found member
    refine Or.inl ⟨?_, (memCloseItems wf).1 member⟩
    exact (List.getElem?_inj (List.getElem?_eq_some_iff.1 found).1 collectionNodup).1
      (found.trans collectionStart.symm)
  | edge before step =>
    obtain ⟨x, _, rfl⟩ := List.mem_map.1 step
    exact Or.inr ⟨_, x, (memGotoItems wf).1 member, fun j hj =>
      holdsIff.2 ⟨_, found, (memGotoItems wf).2 hj⟩⟩

theorem holdsClosed {s id : Nat} {i : Item} {p : Production Symbol} (h : Holds g.lr0States s i)
    (next : i.next? g.productions = some p.lhs) (found : g.productions[id]? = some p) :
    Holds g.lr0States s ⟨id, 0⟩ := by
  rcases inClosureOf wf h with ⟨rfl, inside⟩ | ⟨items, x, inside, all⟩
  · exact holdsIff.2 ⟨_, collectionStart, (memCloseItems wf).2 (.predict inside next found)⟩
  · exact all _ (.predict inside next found)

theorem holdsOrigin {s id : Nat} {p : Production Symbol} (h : Holds g.lr0States s ⟨id, 0⟩)
    (found : g.productions[id]? = some p) :
    (s = 0 ∧ id = g.startProduction) ∨
      ∃ i, Holds g.lr0States s i ∧ i.next? g.productions = some p.lhs := by
  rcases inClosureOf wf h with ⟨rfl, inside⟩ | ⟨items, x, inside, all⟩
  · cases inside with
    | kernel h => exact Or.inl ⟨rfl, congrArg Item.production (List.mem_singleton.1 h)⟩
    | predict before next start =>
      obtain rfl := Option.some.inj (found.symm.trans start)
      exact Or.inr ⟨_, holdsIff.2 ⟨_, collectionStart, (memCloseItems wf).2 before⟩, next⟩
  · cases inside with
    | kernel h =>
      obtain ⟨j, _, _, same⟩ := memMovedItems.1 h
      cases same
    | predict before next start =>
      obtain rfl := Option.some.inj (found.symm.trans start)
      exact Or.inr ⟨_, all _ before, next⟩

theorem holdsValid {s : Nat} {i : Item} (h : Holds g.lr0States s i) :
    ∃ p, g.productions[i.production]? = some p ∧ i.dot ≤ p.rhs.length := by
  refine memAllItems.1 ?_
  rcases inClosureOf wf h with ⟨_, inside⟩ | ⟨items, x, inside, _⟩
  · exact inClosureValid (initialValid wf) inside
  · exact inClosureValid (movedItemsValid x) inside

theorem startStateOnly {s : Nat} (h : Holds g.lr0States s ⟨g.startProduction, 0⟩) : s = 0 := by
  rcases holdsOrigin wf h wf.startProduction with ⟨rfl, _⟩ | ⟨i, _, next⟩
  · rfl
  · exact absurd rfl (wf.nextDefined next rfl).2

theorem startStateFresh {id dot : Nat} (h : Holds g.lr0States 0 ⟨id, dot⟩) : dot = 0 := by
  obtain ⟨items, found, member⟩ := holdsIff.1 h
  obtain rfl : g.initialItems = items := Option.some.inj (collectionStart.symm.trans found)
  cases (memCloseItems wf).1 member with
  | kernel h => exact congrArg Item.dot (List.mem_singleton.1 h)
  | predict => rfl

theorem movesNotStart {s t : Nat} {x : Symbol} (move : Moves g.lr0States s x t) : t ≠ 0 := by
  rintro rfl
  obtain ⟨items, _, _, goto⟩ := (movesIff wf).1 move
  have same : g.initialItems = g.gotoItems items x :=
    Option.some.inj (collectionStart.symm.trans goto)
  have member : (⟨g.startProduction, 0⟩ : Item) ∈ g.gotoItems items x :=
    same ▸ (memCloseItems wf).2 (.kernel (List.mem_singleton.2 rfl))
  cases (memGotoItems wf).1 member with
  | kernel h =>
    obtain ⟨j, _, _, same⟩ := memMovedItems.1 h
    exact absurd (congrArg Item.dot same) (by simp [Item.advance])
  | predict before next found =>
    obtain rfl := Option.some.inj (wf.startProduction.symm.trans found)
    exact (wf.nextDefined next rfl).2 rfl

end
end Grammar
end ForkingLR
