import ForkingLR.Proofs.Table.Correspondence

/-! Tables do not depend on how productions are numbered, up to the order of their states. Two grammars
that list the same productions in different orders have item sets that cover each other, found along the
same moves, so their states correspond in both directions. -/
namespace ForkingLR

structure Item.Alike (N : Nat → Nat → Prop) (i j : Item) : Prop where
  number : N i.production j.production
  dot : i.dot = j.dot

theorem Item.Alike.symm {N : Nat → Nat → Prop} {i j : Item} (alike : Item.Alike N i j) :
    Item.Alike (fun j i => N i j) j i := ⟨alike.number, alike.dot.symm⟩

namespace Grammar
open Table

structure Permuted (R : Symbol → Symbol → Prop) (N : Nat → Nat → Prop) (g h : Grammar) : Prop where
  left : Includes R N g h
  right : Includes (fun y x => R x y) (fun j i => N i j) h g

def Covers (N : Nat → Nat → Prop) (k l : List Item) : Prop := ∀ i ∈ k, ∀ j, Item.Alike N i j → j ∈ l

structure Twins (N : Nat → Nat → Prop) (k l : List Item) : Prop where
  left : Covers N k l
  right : Covers (fun j i => N i j) l k

variable {R : Symbol → Symbol → Prop} {N : Nat → Nat → Prop} {g h : Grammar}

theorem Permuted.symm (permuted : Permuted R N g h) : Permuted (fun y x => R x y) (fun j i => N i j) h g :=
  ⟨permuted.right, permuted.left⟩

theorem Twins.symm {k l : List Item} (twins : Twins N k l) : Twins (fun j i => N i j) l k :=
  ⟨twins.right, twins.left⟩

namespace Includes
variable (includes : Includes R N g h)
include includes

theorem partner {i : Item} {p : Production Symbol} (found : g.productions[i.production]? = some p) :
    ∃ j, Item.Alike N i j := by
  obtain ⟨k, _, number, _, _⟩ := includes.productions found
  exact ⟨⟨k, i.dot⟩, number, rfl⟩

theorem nextAlike {i j : Item} (alike : Item.Alike N i j) {x y : Symbol} (related : R x y)
    (next : i.next? g.productions = some x) : j.next? h.productions = some y := by
  obtain ⟨id, dot⟩ := i
  obtain ⟨k, _⟩ := j
  obtain ⟨number, rfl⟩ := alike
  obtain ⟨y', next', related'⟩ := includes.next number next
  rwa [(includes.names.unique related related').1 rfl]

theorem inClosure {kernel kernel' : List Item} (covers : Covers N kernel kernel') {i : Item}
    (inside : g.InClosure kernel i) : ∀ {j : Item}, Item.Alike N i j → h.InClosure kernel' j := by
  induction inside with
  | kernel listed =>
    intro j alike
    exact .kernel (covers _ listed j alike)
  | @predict i id p before next found ih =>
    rintro ⟨k, _⟩ ⟨number, rfl⟩
    obtain ⟨own, here, _⟩ := Item.nextIff.1 next
    obtain ⟨j, alike⟩ := includes.partner here
    obtain ⟨q, found', same⟩ := includes.production number found
    exact .predict (ih alike) (includes.nextAlike alike same.lhs next) found'

theorem closeItems {kernel kernel' : List Item} (covers : Covers N kernel kernel') :
    Covers N (g.closeItems kernel) (h.closeItems kernel') := by
  intro i inside j alike
  rw [memCloseItems includes.wellFormed] at inside
  exact (memCloseItems includes.wellFormed').2 (includes.inClosure covers inside alike)

theorem initialItems : Covers N g.initialItems h.initialItems := by
  refine includes.closeItems ?_
  rintro i listed ⟨k, dot⟩ ⟨number, same⟩
  obtain rfl := List.mem_singleton.1 listed
  obtain rfl := includes.startProduction number
  obtain rfl : 0 = dot := same
  exact List.mem_singleton.2 rfl

theorem gotoItems {items items' : List Item} (covers : Covers N items items') {x y : Symbol}
    (related : R x y) : Covers N (g.gotoItems items x) (h.gotoItems items' y) := by
  suffices moved : Covers N (g.movedItems items x) (h.movedItems items' y) from includes.closeItems moved
  rintro i listed ⟨k, dot⟩ ⟨number, same⟩
  obtain ⟨i, inside, next, rfl⟩ := memMovedItems.1 listed
  obtain rfl : i.dot + 1 = dot := same
  have alike : Item.Alike N i ⟨k, i.dot⟩ := ⟨number, rfl⟩
  exact memMovedItems.2 ⟨_, covers i inside _ alike, includes.nextAlike alike related next, rfl⟩

theorem nextSymbols {items items' : List Item} (covers : Covers N items items') {x : Symbol}
    (next : x ∈ g.nextSymbols items) : ∃ y ∈ h.nextSymbols items', R x y := by
  obtain ⟨i, inside, next⟩ := memNextSymbols.1 next
  obtain ⟨p, found, _⟩ := Item.nextIff.1 next
  obtain ⟨k, _, number, _, _⟩ := includes.productions found
  obtain ⟨y, next', related⟩ := includes.next number next
  exact ⟨y, memNextSymbols.2 ⟨⟨k, i.dot⟩, covers i inside _ ⟨number, rfl⟩, next'⟩, related⟩

end Includes

section
variable (permuted : Permuted R N g h)
include permuted

theorem Permuted.twinGoto {items items' : List Item} (twins : Twins N items items') {x y : Symbol}
    (related : R x y) : Twins N (g.gotoItems items x) (h.gotoItems items' y) :=
  ⟨permuted.left.gotoItems twins.left related, permuted.right.gotoItems twins.right related⟩

theorem Permuted.twin {items : List Item} (inside : items ∈ g.collection) :
    ∃ items' ∈ h.collection, Twins N items items' := by
  have reached := (memCollection permuted.left.wellFormed).1 inside
  clear inside
  induction reached with
  | root listed =>
    rw [List.mem_singleton.1 listed]
    exact ⟨_, List.mem_of_getElem? collectionStart, permuted.left.initialItems, permuted.right.initialItems⟩
  | edge _ step ih =>
    obtain ⟨items', inside', twins⟩ := ih
    obtain ⟨x, next, rfl⟩ := List.mem_map.1 step
    obtain ⟨y, next', related⟩ := permuted.left.nextSymbols twins.left next
    exact ⟨_, gotoMemCollection permuted.left.wellFormed' inside' next', permuted.twinGoto twins related⟩

theorem Permuted.twinItem {items items' : List Item} (twins : Twins N items items') {s : Nat}
    (placed : g.collection[s]? = some items) {i : Item} (inside : i ∈ items) : ∃ j ∈ items', Item.Alike N i j := by
  obtain ⟨p, found, _⟩ := holdsValid permuted.left.wellFormed (holdsIff.2 ⟨items, placed, inside⟩)
  obtain ⟨j, alike⟩ := permuted.left.partner found
  exact ⟨j, twins.left i inside j alike, alike⟩

theorem Permuted.twinSub {items items' items'' : List Item} (twins : Twins N items items')
    (twins' : Twins N items items'') {t : Nat} (placed : h.collection[t]? = some items') :
    items' ⊆ items'' := by
  intro j inside
  obtain ⟨i, inside', alike⟩ := permuted.symm.twinItem twins.symm placed inside
  exact twins'.left i inside' j alike.symm

end

def TwinStates (N : Nat → Nat → Prop) (g h : Grammar) (s t : Nat) : Prop :=
  ∃ items items', g.collection[s]? = some items ∧ h.collection[t]? = some items' ∧ Twins N items items'

theorem TwinStates.symm {s t : Nat} (twins : TwinStates N g h s t) :
    TwinStates (fun j i => N i j) h g t s := by
  obtain ⟨items, items', placed, placed', twins⟩ := twins
  exact ⟨items', items, placed', placed, twins.symm⟩

theorem twinStatesSwap :
    (fun s t => TwinStates (fun j i => N i j) h g t s) = TwinStates N g h :=
  funext fun _ => funext fun _ => propext ⟨TwinStates.symm, TwinStates.symm⟩

theorem Permuted.twinState (permuted : Permuted R N g h) {s : Nat} {items : List Item}
    (placed : g.collection[s]? = some items) : ∃ t, TwinStates N g h s t := by
  obtain ⟨items', inside', twins⟩ := permuted.twin (List.mem_of_getElem? placed)
  obtain ⟨t, placed'⟩ := List.mem_iff_getElem?.1 inside'
  exact ⟨t, items, items', placed, placed', twins⟩

theorem Permuted.corresponds (permuted : Permuted R N g h) : Corresponds R N (TwinStates N g h) g h where
  toIncludes := permuted.left
  start := ⟨_, _, collectionStart, collectionStart, permuted.left.initialItems, permuted.right.initialItems⟩
  placed held := by
    obtain ⟨items, placed, _⟩ := holdsIff.1 held
    exact permuted.twinState placed
  unique := by
    rintro s t t' ⟨items, items', placed, placed', twins⟩ ⟨again, items'', same, placed'', twins'⟩
    obtain rfl := Option.some.inj (placed.symm.trans same)
    have equal : items' = items'' := by
      refine SortedSet.eqOfMembers (itemsSorted permuted.left.wellFormed' placed')
        (itemsSorted permuted.left.wellFormed' placed'') fun j => ?_
      exact ⟨fun inside => permuted.twinSub twins twins' placed' inside,
        fun inside => permuted.twinSub twins' twins placed'' inside⟩
    rw [← equal] at placed''
    exact (List.getElem?_inj (List.getElem?_eq_some_iff.1 placed').1 collectionNodup).1
      (placed'.trans placed''.symm)
  holds := by
    rintro s t id k dot ⟨items, items', placed, placed', twins⟩ number held
    obtain ⟨again, same, inside⟩ := holdsIff.1 held
    obtain rfl := Option.some.inj (placed.symm.trans same)
    exact holdsIff.2 ⟨items', placed', twins.left _ inside _ ⟨number, rfl⟩⟩
  moves := by
    rintro s t s' x y ⟨items, items', placed, placed', twins⟩ related move
    obtain ⟨again, same, next, goto⟩ := (movesIff permuted.left.wellFormed).1 move
    obtain rfl := Option.some.inj (placed.symm.trans same)
    obtain ⟨y', next', related'⟩ := permuted.left.nextSymbols twins.left next
    obtain rfl := (permuted.left.names.unique related related').1 rfl
    have inside := gotoMemCollection permuted.left.wellFormed' (List.mem_of_getElem? placed') next'
    obtain ⟨t', goto'⟩ := List.mem_iff_getElem?.1 inside
    exact ⟨t', (movesIff permuted.left.wellFormed').2 ⟨items', placed', next', goto'⟩,
      _, _, goto, goto', permuted.twinGoto twins related⟩

end Grammar
end ForkingLR
