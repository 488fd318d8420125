import ForkingLR.Sorted.Map
import ForkingLR.Sorted.Set
import Mathlib.Data.List.Perm.Basic

/-! Sorted sets and maps through their members. A set is known by what it holds and a map by
what it answers, so the proofs about tables never look at the order of the lists again. -/
namespace ForkingLR

namespace SortedSet
variable {α : Type}

theorem memDropWhile {x : α} {p : α → Bool} {t : List α} (h : x ∈ t) (stays : p x = false) :
    x ∈ t.dropWhile p := by
  induction t with
  | nil => simp at h
  | cons b rest ih =>
    rw [List.dropWhile_cons]
    split
    · rename_i drops
      rcases List.mem_cons.1 h with rfl | h
      · simp [stays] at drops
      · exact ih h
    · exact h

variable [Ord α]

theorem memIff {a : α} {s : SortedSet α} : a ∈ s ↔ a ∈ s.toList := Iff.rfl

@[simp]
theorem notMemEmpty (a : α) : ¬ a ∈ (∅ : SortedSet α) := List.not_mem_nil

theorem nodup [Std.LawfulEqOrd α] (s : SortedSet α) : s.toList.Nodup :=
  s.sorted.imp fun {a b} less same => by simp [same] at less

theorem memTakeWhile [Std.TransOrd α] {a x : α} {t : List α}
    (sorted : t.Pairwise fun a b => compare a b = .lt) (h : x ∈ t) (less : compare x a = .lt) :
    x ∈ t.takeWhile fun b => compare b a == .lt := by
  induction t with
  | nil => simp at h
  | cons b rest ih =>
    obtain ⟨below, tail⟩ := List.pairwise_cons.1 sorted
    rcases List.mem_cons.1 h with rfl | h
    · simp [less]
    · have small : compare b a = .lt := Std.TransCmp.lt_trans (below x h) less
      simp [small, ih tail h]

variable [Std.LawfulEqOrd α]

theorem memInsertList {a x : α} {l : List α} : x ∈ insertList a l ↔ x = a ∨ x ∈ l := by
  constructor
  · exact memOfInsertList
  · intro h
    induction l with
    | nil => simpa [insertList] using h
    | cons b rest ih =>
      unfold insertList
      split
      · simpa using h
      · rename_i same
        rcases h with rfl | h
        · simp [Std.LawfulEqOrd.eq_of_compare same]
        · exact h
      · rcases h with rfl | h
        · exact List.mem_cons_of_mem _ (ih (Or.inl rfl))
        · rcases List.mem_cons.1 h with rfl | h
          · simp
          · exact List.mem_cons_of_mem _ (ih (Or.inr h))

variable [Std.TransOrd α]

theorem memUnionList {x : α} {s t : List α} (sorted : t.Pairwise fun a b => compare a b = .lt) :
    x ∈ unionList s t ↔ x ∈ s ∨ x ∈ t := by
  constructor
  · exact memOfUnionList
  · intro h
    induction s generalizing t with
    | nil => simpa [unionList] using h
    | cons a s ih =>
      have rest := sorted.sublist (List.dropWhile_sublist fun b => compare b a != .gt)
      unfold unionList
      rcases h with h | h
      · rcases List.mem_cons.1 h with rfl | h
        · simp
        · exact List.mem_append_right _ (List.mem_cons_of_mem _ (ih rest (Or.inl h)))
      · cases order : compare x a with
        | lt => exact List.mem_append_left _ (memTakeWhile sorted h order)
        | eq => simp [Std.LawfulEqOrd.eq_of_compare order]
        | gt =>
          have kept := memDropWhile (p := fun b => compare b a != .gt) h (by simp [order])
          exact List.mem_append_right _ (List.mem_cons_of_mem _ (ih rest (Or.inr kept)))

@[simp]
theorem memInsert {s : SortedSet α} {a x : α} : x ∈ s.insert a ↔ x = a ∨ x ∈ s := memInsertList

@[simp]
theorem memUnion {s t : SortedSet α} {x : α} : x ∈ s ∪ t ↔ x ∈ s ∨ x ∈ t := memUnionList t.sorted

theorem memInsertMany {s : SortedSet α} {xs : List α} {x : α} :
    x ∈ s.insertMany xs ↔ x ∈ s ∨ x ∈ xs := by
  induction xs generalizing s with
  | nil => simp [insertMany]
  | cons a xs ih =>
    have step : s.insertMany (a :: xs) = (s.insert a).insertMany xs := rfl
    rw [step, ih, memInsert, List.mem_cons]
    tauto

@[simp]
theorem memOfList {xs : List α} {x : α} : x ∈ ofList xs ↔ x ∈ xs := by
  have nothing : ¬ x ∈ (empty : SortedSet α) := List.not_mem_nil
  simp [ofList, memInsertMany, nothing]

theorem eqOfMembers {s t : List α} (left : s.Pairwise fun a b => compare a b = .lt)
    (right : t.Pairwise fun a b => compare a b = .lt) (h : ∀ x, x ∈ s ↔ x ∈ t) : s = t := by
  have perm : s.Perm t := (List.perm_ext_iff_of_nodup (nodup ⟨s, left⟩) (nodup ⟨t, right⟩)).2 h
  refine perm.eq_of_pairwise ?_ left right
  intro a b _ _ less greater
  exact absurd (Std.OrientedCmp.gt_iff_lt.2 less) (by simp [greater])

theorem extMembers {s t : SortedSet α} (h : ∀ x, x ∈ s ↔ x ∈ t) : s = t := by
  cases s with
  | mk s left =>
    cases t with
    | mk t right =>
      obtain rfl := eqOfMembers left right h
      rfl

end SortedSet

namespace SortedMap
variable {α β : Type} [Ord α]

@[simp]
theorem getEmpty (a : α) : (∅ : SortedMap α β).get? a = none := rfl

variable [Std.LawfulEqOrd α]

theorem getSomeIff {m : SortedMap α β} {a : α} {b : β} :
    m.get? a = some b ↔ (a, b) ∈ m.entries := by
  obtain ⟨entries, sorted⟩ := m
  unfold get?
  induction entries with
  | nil => simp
  | cons e rest ih =>
    obtain ⟨below, tail⟩ := List.pairwise_cons.1 sorted
    have := ih tail
    rw [List.find?_cons]
    cases order : compare a e.1 == .eq with
    | true =>
      have same : a = e.1 := Std.LawfulEqOrd.eq_of_compare (by simpa using order)
      have absent : (e.1, b) ∉ rest := by
        intro h
        have less := below _ h
        simp at less
      simp [absent, same, Prod.ext_iff, eq_comm]
    | false =>
      have other : ¬ a = e.1 := by
        intro same
        simp [same] at order
      simp [this, Prod.ext_iff, other]

theorem getErase (m : SortedMap α β) (a x : α) [DecidableEq α] :
    (m.erase a).get? x = if x = a then none else m.get? x := by
  by_cases same : x = a
  · rw [if_pos same, Option.eq_none_iff_forall_ne_some]
    intro b h
    have kept := (List.mem_filter.1 (getSomeIff.1 h)).2
    simp [same, Std.ReflCmp.compare_self] at kept
  · rw [if_neg same]
    refine Option.ext fun b => ?_
    rw [getSomeIff, getSomeIff]
    have stays : (compare a x != .eq) = true := by simp [Ne.symm same]
    simp [erase, stays]

theorem memKeys {m : SortedMap α β} {a : α} : a ∈ m.keys ↔ ∃ b, m.get? a = some b := by
  simp [keys, getSomeIff]

theorem keysNodup (m : SortedMap α β) : m.keys.Nodup := by
  rw [keys, List.Nodup, List.pairwise_map]
  exact m.sorted.imp fun {a b} less same => by simp [same] at less

variable [Std.TransOrd α]

theorem getInsert (m : SortedMap α β) (a x : α) (b : β) [DecidableEq α] :
    (m.insert a b).get? x = if x = a then some b else m.get? x := by
  obtain ⟨entries, sorted⟩ := m
  simp only [insert, get?]
  induction entries with
  | nil => by_cases h : x = a <;> simp [insertList, h]
  | cons e rest ih =>
    have rest := ih (List.pairwise_cons.1 sorted).2
    unfold insertList
    split
    · by_cases h : x = a <;> simp [List.find?_cons, h]
    · rename_i order
      have same : a = e.1 := Std.LawfulEqOrd.eq_of_compare order
      by_cases h : x = a
      · simp [h, same, Std.ReflCmp.compare_self]
      · have other : ¬ x = e.1 := fun eq => h (eq.trans same.symm)
        simp [h, other]
    · rename_i order
      simp only [List.find?_cons]
      split
      · rename_i here
        have placed : x = e.1 := Std.LawfulEqOrd.eq_of_compare (by simpa using here)
        have other : ¬ x = a := by
          intro same
          simp [← same, placed, Std.ReflCmp.compare_self] at order
        simp [other]
      · exact rest

theorem getFoldInsert [DecidableEq α] (f : α → β) (l : List α) (m : SortedMap α β) (x : α) :
    (l.foldl (fun m a => m.insert a (f a)) m).get? x = if x ∈ l then some (f x) else m.get? x := by
  induction l generalizing m with
  | nil => simp
  | cons a l ih =>
    rw [List.foldl_cons, ih, getInsert]
    by_cases inside : x ∈ l
    · simp [inside]
    · by_cases same : x = a <;> simp [inside, same]

theorem getOfGraph [DecidableEq α] (f : α → β) (l : List α) (x : α) :
    (ofList (l.map fun a => (a, f a))).get? x = if x ∈ l then some (f x) else none := by
  have unfolded : ofList (l.map fun a => (a, f a)) =
      l.foldl (fun m a => m.insert a (f a)) (∅ : SortedMap α β) := by
    simp only [ofList, List.foldl_map]
    rfl
  rw [unfolded, getFoldInsert, getEmpty]

theorem getFoldOthers [DecidableEq α] {l : List (α × β)} {a : α} (absent : a ∉ l.map Prod.fst)
    (m : SortedMap α β) : (l.foldl (fun m e => m.insert e.1 e.2) m).get? a = m.get? a := by
  induction l generalizing m with
  | nil => rfl
  | cons e l ih =>
    rw [List.map_cons, List.mem_cons, not_or] at absent
    rw [List.foldl_cons, ih absent.2, getInsert, if_neg absent.1]

theorem getFoldListed [DecidableEq α] {l : List (α × β)} (distinct : (l.map Prod.fst).Nodup) {a : α} {b : β}
    (listed : (a, b) ∈ l) (m : SortedMap α β) :
    (l.foldl (fun m e => m.insert e.1 e.2) m).get? a = some b := by
  induction l generalizing m with
  | nil => cases listed
  | cons e l ih =>
    obtain ⟨new, distinct⟩ := List.nodup_cons.1 distinct
    rw [List.foldl_cons]
    rcases List.mem_cons.1 listed with rfl | listed
    · rw [getFoldOthers new, getInsert, if_pos rfl]
    · exact ih distinct listed _

theorem keysOfList [DecidableEq α] {l : List (α × β)} {a : α} (found : (ofList l).get? a ≠ none) :
    a ∈ l.map Prod.fst := by
  by_contra absent
  exact found (getFoldOthers absent empty)

theorem getOfList [DecidableEq α] {l : List (α × β)} (distinct : (l.map Prod.fst).Nodup) {a : α} {b : β} :
    (ofList l).get? a = some b ↔ (a, b) ∈ l := by
  constructor
  · intro found
    have present : a ∈ l.map Prod.fst := keysOfList (found ▸ Option.some_ne_none b)
    obtain ⟨⟨a, b'⟩, listed, rfl⟩ := List.mem_map.1 present
    have found' : (ofList l).get? a = some b' := getFoldListed distinct listed empty
    rwa [← Option.some.inj (found'.symm.trans found)]
  · exact fun listed => getFoldListed distinct listed empty

theorem extAnswers {m n : SortedMap α β} (h : ∀ a, m.get? a = n.get? a) : m = n := by
  have perm : m.entries.Perm n.entries := by
    refine (List.perm_ext_iff_of_nodup ?_ ?_).2 ?_
    · exact m.sorted.imp fun {a b} less same => by simp [same] at less
    · exact n.sorted.imp fun {a b} less same => by simp [same] at less
    · rintro ⟨a, b⟩
      rw [← getSomeIff, ← getSomeIff, h]
  have same : m.entries = n.entries := by
    refine perm.eq_of_pairwise ?_ m.sorted n.sorted
    intro a b _ _ less greater
    exact absurd (Std.OrientedCmp.gt_iff_lt.2 less) (by simp [greater])
  cases m
  cases n
  cases same
  rfl

end SortedMap
end ForkingLR
