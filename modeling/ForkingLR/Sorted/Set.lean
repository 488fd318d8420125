/-! Finite sets as strictly increasing lists. The order is part of the type, so two sets with
the same members are equal and every listing of a set is in one order. -/
namespace ForkingLR

structure SortedSet (α : Type) [Ord α] where
  toList : List α
  sorted : toList.Pairwise fun a b => compare a b = .lt

namespace SortedSet
variable {α : Type} [Ord α]

instance [DecidableEq α] : DecidableEq (SortedSet α) := fun s t =>
  decidable_of_iff (s.toList = t.toList)
    ⟨fun h => by cases s; cases t; cases h; rfl, fun h => by rw [h]⟩

def empty : SortedSet α := ⟨[], .nil⟩

instance : EmptyCollection (SortedSet α) := ⟨empty⟩
instance : Inhabited (SortedSet α) := ⟨empty⟩
instance : Membership α (SortedSet α) := ⟨fun s a => a ∈ s.toList⟩

instance [DecidableEq α] (a : α) (s : SortedSet α) : Decidable (a ∈ s) :=
  inferInstanceAs (Decidable (a ∈ s.toList))

def insertList (a : α) : List α → List α
  | [] => [a]
  | b :: rest =>
    match compare a b with
    | .lt => a :: b :: rest
    | .eq => b :: rest
    | .gt => b :: insertList a rest

theorem memOfInsertList {a x : α} {l : List α} (h : x ∈ insertList a l) : x = a ∨ x ∈ l := by
  induction l with
  | nil => simpa [insertList] using h
  | cons b rest ih =>
    unfold insertList at h
    split at h
    · simpa using h
    · exact Or.inr h
    · rcases List.mem_cons.1 h with rfl | h
      · simp
      · rcases ih h with h | h <;> simp [h]

theorem insertListSorted [Std.TransOrd α] (a : α) {l : List α}
    (h : l.Pairwise fun a b => compare a b = .lt) :
    (insertList a l).Pairwise fun a b => compare a b = .lt := by
  induction l with
  | nil => simp [insertList]
  | cons b rest ih =>
    have below := (List.pairwise_cons.1 h).1
    have tail := (List.pairwise_cons.1 h).2
    unfold insertList
    split
    · rename_i less
      refine List.pairwise_cons.2 ⟨?_, h⟩
      intro x hx
      rcases List.mem_cons.1 hx with rfl | hx
      · exact less
      · exact Std.TransCmp.lt_trans less (below x hx)
    · exact h
    · rename_i greater
      refine List.pairwise_cons.2 ⟨?_, ih tail⟩
      intro x hx
      rcases memOfInsertList hx with rfl | hx
      · exact Std.OrientedCmp.gt_iff_lt.1 greater
      · exact below x hx

def unionList : List α → List α → List α
  | [], t => t
  | a :: s, t =>
    (t.takeWhile fun b => compare b a == .lt) ++
      a :: unionList s (t.dropWhile fun b => compare b a != .gt)

theorem memOfUnionList {x : α} {s t : List α} (h : x ∈ unionList s t) : x ∈ s ∨ x ∈ t := by
  induction s generalizing t with
  | nil => exact Or.inr h
  | cons a s ih =>
    rcases List.mem_append.1 h with h | h
    · exact Or.inr ((List.takeWhile_sublist _).mem h)
    · rcases List.mem_cons.1 h with rfl | h
      · simp
      · rcases ih h with h | h
        · exact Or.inl (List.mem_cons_of_mem _ h)
        · exact Or.inr ((List.dropWhile_sublist _).mem h)

theorem ltOfDropWhile [Std.TransOrd α] {a x : α} {t : List α}
    (sorted : t.Pairwise fun a b => compare a b = .lt)
    (h : x ∈ t.dropWhile fun b => compare b a != .gt) : compare a x = .lt := by
  induction t with
  | nil => simp at h
  | cons b rest ih =>
    have below := (List.pairwise_cons.1 sorted).1
    rw [List.dropWhile_cons] at h
    split at h
    · exact ih (List.pairwise_cons.1 sorted).2 h
    · rename_i greater
      have less : compare a b = .lt := Std.OrientedCmp.gt_iff_lt.1 (by simpa using greater)
      rcases List.mem_cons.1 h with rfl | h
      · exact less
      · exact Std.TransCmp.lt_trans less (below x h)

theorem unionListSorted [Std.TransOrd α] {s t : List α}
    (left : s.Pairwise fun a b => compare a b = .lt)
    (right : t.Pairwise fun a b => compare a b = .lt) :
    (unionList s t).Pairwise fun a b => compare a b = .lt := by
  induction s generalizing t with
  | nil => exact right
  | cons a s ih =>
    have below := (List.pairwise_cons.1 left).1
    have after {x : α} (h : x ∈ unionList s (t.dropWhile fun b => compare b a != .gt)) :
        compare a x = .lt := by
      rcases memOfUnionList h with h | h
      · exact below x h
      · exact ltOfDropWhile right h
    refine List.pairwise_append.2 ⟨right.sublist (List.takeWhile_sublist _),
      List.pairwise_cons.2 ⟨fun _ => after, ih (List.pairwise_cons.1 left).2
        (right.sublist (List.dropWhile_sublist _))⟩, ?_⟩
    intro x hx y hy
    have less : compare x a = .lt := by
      simpa using List.all_eq_true.1 List.all_takeWhile x hx
    rcases List.mem_cons.1 hy with rfl | hy
    · exact less
    · exact Std.TransCmp.lt_trans less (after hy)

variable [Std.TransOrd α]

def insert (s : SortedSet α) (a : α) : SortedSet α :=
  ⟨insertList a s.toList, insertListSorted a s.sorted⟩

def insertMany (s : SortedSet α) (xs : List α) : SortedSet α := xs.foldl insert s

def union (s t : SortedSet α) : SortedSet α :=
  ⟨unionList s.toList t.toList, unionListSorted s.sorted t.sorted⟩

instance : Union (SortedSet α) := ⟨union⟩

def ofList (xs : List α) : SortedSet α := empty.insertMany xs

def size (s : SortedSet α) : Nat := s.toList.length

end SortedSet
end ForkingLR
