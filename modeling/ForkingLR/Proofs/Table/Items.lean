import ForkingLR.Proofs.Grammar.History
import ForkingLR.Proofs.Reach
import ForkingLR.Proofs.Sorted
import ForkingLR.Table.Collection
import Mathlib.Data.List.Sublists

/-! The items of the LR(0) states. A closed set holds what its kernel predicts, the collection
holds every set the initial one leads to, and an item anywhere in a state comes from one of three
places: the augmented production in state 0, the same item one symbol earlier, or a prediction. -/
namespace ForkingLR

theorem Item.nextIff {σ : Type} {productions : List (Production σ)} {item : Item} {x : σ} :
    item.next? productions = some x ↔
      ∃ p, productions[item.production]? = some p ∧ p.rhs[item.dot]? = some x :=
  Option.bind_eq_some_iff

namespace Grammar
variable {g : Grammar}

theorem memProductionsFor {lhs : Symbol} {p : Production Symbol} {id : Nat} :
    (p, id) ∈ g.cfg.productionsFor lhs ↔ g.productions[id]? = some p ∧ p.lhs = lhs := by
  simp [Cfg.productionsFor, cfg, List.mem_zipIdx_iff_getElem?]

theorem memLeftCorners {lhs x : Symbol} :
    x ∈ g.leftCorners lhs ↔ isTerminal x = false ∧
      ∃ (id : Nat) (p : Production Symbol),
        g.productions[id]? = some p ∧ p.lhs = lhs ∧ p.rhs[0]? = some x := by
  simp only [leftCorners, List.mem_filterMap, Prod.exists, memProductionsFor, Option.filter_eq_some_iff,
    List.head?_eq_getElem?, Bool.not_eq_true']
  grind

theorem memAwaited {items : List Item} {x : Symbol} :
    x ∈ g.awaited items ↔ isTerminal x = false ∧
      ∃ i ∈ items, i.next? g.productions = some x := by
  simp [awaited, and_comm]

theorem memBeginnings {lhs : Symbol} {i : Item} :
    i ∈ g.beginnings lhs ↔ i.dot = 0 ∧ ∃ p, g.productions[i.production]? = some p ∧ p.lhs = lhs := by
  simp only [beginnings, List.mem_map, Prod.exists, memProductionsFor]
  constructor
  · rintro ⟨p, id, found, rfl⟩
    exact ⟨rfl, p, found⟩
  · rintro ⟨dot, p, found⟩
    exact ⟨p, i.production, found, by rw [← dot]⟩

theorem WellFormed.nextDefined (wf : g.WellFormed) {i : Item} {x : Symbol}
    (next : i.next? g.productions = some x) (nonterminal : isTerminal x = false) :
    x ∈ g.productions.map Production.lhs ∧ x ≠ .augmentedStart := by
  obtain ⟨p, found, here⟩ := Item.nextIff.1 next
  obtain ⟨q, hq, lhs, other⟩ := wf.defined p (List.mem_of_getElem? found) x
    (List.mem_of_getElem? here) nonterminal
  exact ⟨List.mem_map.2 ⟨q, hq, lhs⟩, other⟩

theorem awaitedDefined (wf : g.WellFormed) (items : List Item) :
    g.awaited items ⊆ g.productions.map Production.lhs := by
  intro x hx
  obtain ⟨nonterminal, i, _, next⟩ := memAwaited.1 hx
  exact (wf.nextDefined next nonterminal).1

theorem cornersDefined (wf : g.WellFormed) (lhs : Symbol) :
    g.leftCorners lhs ⊆ g.productions.map Production.lhs := by
  intro x hx
  obtain ⟨nonterminal, id, p, found, _, head⟩ := memLeftCorners.1 hx
  exact (wf.nextDefined (i := ⟨id, 0⟩) (Item.nextIff.2 ⟨p, found, head⟩) nonterminal).1

theorem predictedExhausts (wf : g.WellFormed) (items : List Item) :
    Reach.Exhausts g.leftCorners [] (g.awaited items).eraseDups (g.predicted items) :=
  Reach.closureExhausts (g.productions.map Production.lhs) (awaitedDefined wf items)
    (fun lhs _ => cornersDefined wf lhs) (by simp [size])

theorem memPredicted (wf : g.WellFormed) {items : List Item} {x : Symbol} :
    x ∈ g.predicted items ↔ Reach.Reachable g.leftCorners (g.awaited items) x :=
  Reach.closureExact (g.productions.map Production.lhs) (awaitedDefined wf items)
    (fun lhs _ => cornersDefined wf lhs) (by simp [size])

inductive InClosure (g : Grammar) (kernel : List Item) : Item → Prop
  | kernel {i : Item} (h : i ∈ kernel) : InClosure g kernel i
  | predict {i : Item} {id : Nat} {p : Production Symbol} (before : InClosure g kernel i)
      (next : i.next? g.productions = some p.lhs) (found : g.productions[id]? = some p) :
      InClosure g kernel ⟨id, 0⟩

theorem memCloseItems (wf : g.WellFormed) {kernel : List Item} {i : Item} :
    i ∈ g.closeItems kernel ↔ g.InClosure kernel i := by
  have predicted {x : Symbol} (h : Reach.Reachable g.leftCorners (g.awaited kernel) x) :
      ∃ j, g.InClosure kernel j ∧ j.next? g.productions = some x := by
    induction h with
    | root h =>
      obtain ⟨_, j, hj, next⟩ := memAwaited.1 h
      exact ⟨j, .kernel hj, next⟩
    | edge before h ih =>
      obtain ⟨_, id, p, found, lhs, head⟩ := memLeftCorners.1 h
      obtain ⟨j, hj, next⟩ := ih
      exact ⟨⟨id, 0⟩, .predict hj (lhs ▸ next) found, Item.nextIff.2 ⟨p, found, head⟩⟩
  rw [closeItems, ← SortedSet.memIff, SortedSet.memInsertMany, SortedSet.memOfList, List.mem_flatMap]
  simp only [memPredicted wf, memBeginnings]
  constructor
  · rintro (h | ⟨x, reach, dot, p, found, rfl⟩)
    · exact .kernel h
    · obtain ⟨j, hj, next⟩ := predicted reach
      obtain ⟨id, dot'⟩ := i
      obtain rfl : dot' = 0 := dot
      exact .predict hj next found
  · intro h
    induction h with
    | kernel h => exact Or.inl h
    | @predict j id p before next found ih =>
      refine Or.inr ⟨p.lhs, ?_, rfl, p, found, rfl⟩
      have nonterminal := wf.lhsNonterminal p (List.mem_of_getElem? found)
      rcases ih with h | ⟨x, reach, dot, q, start, rfl⟩
      · exact .root (memAwaited.2 ⟨nonterminal, j, h, next⟩)
      · obtain ⟨q', same, head⟩ := Item.nextIff.1 next
        obtain rfl : q = q' := Option.some.inj (start.symm.trans same)
        exact .edge reach (memLeftCorners.2 ⟨nonterminal, j.production, q, start, rfl, dot ▸ head⟩)

theorem memNextSymbols {items : List Item} {x : Symbol} :
    x ∈ g.nextSymbols items ↔ ∃ i ∈ items, i.next? g.productions = some x := by
  simp [nextSymbols, List.mem_eraseDups]

def movedItems (g : Grammar) (items : List Item) (x : Symbol) : List Item :=
  (items.filter fun i => i.next? g.productions = some x).map Item.advance

theorem memMovedItems {items : List Item} {x : Symbol} {i : Item} :
    i ∈ g.movedItems items x ↔ ∃ j ∈ items, j.next? g.productions = some x ∧ j.advance = i := by
  simp [movedItems, and_assoc]

theorem memGotoItems (wf : g.WellFormed) {items : List Item} {x : Symbol} {i : Item} :
    i ∈ g.gotoItems items x ↔ g.InClosure (g.movedItems items x) i := memCloseItems wf

theorem memAllItems {i : Item} :
    i ∈ g.allItems ↔ ∃ p, g.productions[i.production]? = some p ∧ i.dot ≤ p.rhs.length := by
  simp only [allItems, List.mem_flatMap, Prod.exists, List.mem_zipIdx_iff_getElem?, List.mem_map,
    List.mem_range]
  constructor
  · rintro ⟨p, id, found, dot, bound, rfl⟩
    exact ⟨p, found, Nat.le_of_lt_succ bound⟩
  · rintro ⟨p, found, bound⟩
    exact ⟨p, i.production, found, i.dot, Nat.lt_succ_of_le bound, rfl⟩

theorem inClosureValid {kernel : List Item} (inside : kernel ⊆ g.allItems) {i : Item}
    (h : g.InClosure kernel i) : i ∈ g.allItems := by
  induction h with
  | kernel h => exact inside h
  | predict before next found ih => exact memAllItems.2 ⟨_, found, Nat.zero_le _⟩

theorem movedItemsValid {items : List Item} (x : Symbol) : g.movedItems items x ⊆ g.allItems := by
  intro i hi
  obtain ⟨j, _, next, rfl⟩ := memMovedItems.1 hi
  obtain ⟨p, found, here⟩ := Item.nextIff.1 next
  exact memAllItems.2 ⟨p, found, (List.getElem?_eq_some_iff.1 here).1⟩

theorem initialValid (wf : g.WellFormed) : [(⟨g.startProduction, 0⟩ : Item)] ⊆ g.allItems := by
  intro i hi
  rw [List.mem_singleton.1 hi]
  exact memAllItems.2 ⟨_, wf.startProduction, Nat.zero_le _⟩

def itemSets (g : Grammar) : List (List Item) := (SortedSet.ofList g.allItems).toList.sublists

theorem itemSetsLength : g.itemSets.length ≤ g.setBound := by
  have fewer : (SortedSet.ofList g.allItems).toList.length ≤ g.allItems.length :=
    (List.subperm_of_subset (SortedSet.nodup _) fun i hi => SortedSet.memOfList.1 hi).length_le
  rw [itemSets, List.length_sublists]
  exact Nat.pow_le_pow_right (by decide) fewer

theorem closeItemsMem (wf : g.WellFormed) {kernel : List Item} (inside : kernel ⊆ g.allItems) :
    g.closeItems kernel ∈ g.itemSets := by
  let all := (SortedSet.ofList g.allItems).toList
  have picked : g.closeItems kernel = all.filter (· ∈ g.closeItems kernel) := by
    refine SortedSet.eqOfMembers (SortedSet.sorted _)
      ((SortedSet.sorted (SortedSet.ofList g.allItems)).sublist List.filter_sublist) fun i => ?_
    have known (h : i ∈ g.closeItems kernel) : i ∈ all :=
      SortedSet.memOfList.2 (inClosureValid inside ((memCloseItems wf).1 h))
    simpa using known
  rw [itemSets, List.mem_sublists, picked]
  exact List.filter_sublist

theorem initialMem (wf : g.WellFormed) : [g.initialItems] ⊆ g.itemSets := by
  intro items h
  rw [List.mem_singleton.1 h]
  exact closeItemsMem wf (initialValid wf)

theorem successorsMem (wf : g.WellFormed) (items : List Item) : g.successors items ⊆ g.itemSets := by
  intro target h
  obtain ⟨x, _, rfl⟩ := List.mem_map.1 h
  exact closeItemsMem wf (movedItemsValid x)

theorem collectionExhausts (wf : g.WellFormed) :
    Reach.Exhausts g.successors [] [g.initialItems] g.collection := by
  have exhausts : Reach.Exhausts g.successors [] [g.initialItems].eraseDups g.collection :=
    Reach.closureExhausts g.itemSets (initialMem wf) (fun items _ => successorsMem wf items) itemSetsLength
  simpa [List.eraseDups_cons] using exhausts

theorem memCollection (wf : g.WellFormed) {items : List Item} :
    items ∈ g.collection ↔ Reach.Reachable g.successors [g.initialItems] items :=
  Reach.closureExact g.itemSets (initialMem wf) (fun items _ => successorsMem wf items) itemSetsLength

theorem collectionNodup : g.collection.Nodup := Reach.closureNodup _ _

theorem collectionStart : g.collection[0]? = some g.initialItems := Reach.closureRoot _ _

theorem gotoMemCollection (wf : g.WellFormed) {items : List Item} {x : Symbol}
    (h : items ∈ g.collection) (next : x ∈ g.nextSymbols items) :
    g.gotoItems items x ∈ g.collection :=
  (memCollection wf).2 (.edge ((memCollection wf).1 h) (List.mem_map_of_mem next))

end Grammar
end ForkingLR
