/-! Finite maps as association lists with strictly increasing keys. -/
namespace ForkingLR

structure SortedMap (α β : Type) [Ord α] where
  entries : List (α × β)
  sorted : entries.Pairwise fun a b => compare a.1 b.1 = .lt

namespace SortedMap
variable {α β : Type} [Ord α]

instance [DecidableEq α] [DecidableEq β] : DecidableEq (SortedMap α β) := fun s t =>
  decidable_of_iff (s.entries = t.entries)
    ⟨fun h => by cases s; cases t; cases h; rfl, fun h => by rw [h]⟩

def empty : SortedMap α β := ⟨[], .nil⟩

instance : EmptyCollection (SortedMap α β) := ⟨empty⟩
instance : Inhabited (SortedMap α β) := ⟨empty⟩

@[inline]
def get? (m : SortedMap α β) (a : α) : Option β :=
  (m.entries.find? fun e => compare a e.1 == .eq).map Prod.snd

@[specialize]
def getListD (a : α) (b : β) : List (α × β) → β
  | [] => b
  | e :: rest =>
    match compare a e.1 with
    | .eq => e.2
    | _ => getListD a b rest

@[inline]
def getD (m : SortedMap α β) (a : α) (b : β) : β := getListD a b m.entries

theorem getDOfGet (m : SortedMap α β) (a : α) (b : β) : m.getD a b = (m.get? a).getD b := by
  unfold getD get?
  induction m.entries with
  | nil => rfl
  | cons e rest ih =>
    simp only [getListD, List.find?_cons]
    cases compare a e.1 <;> simp [ih]

def keys (m : SortedMap α β) : List α := m.entries.map Prod.fst

def insertList (a : α) (b : β) : List (α × β) → List (α × β)
  | [] => [(a, b)]
  | e :: rest =>
    match compare a e.1 with
    | .lt => (a, b) :: e :: rest
    | .eq => (e.1, b) :: rest
    | .gt => e :: insertList a b rest

theorem keyOfInsertList {a x : α} {b : β} {l : List (α × β)}
    (h : x ∈ (insertList a b l).map Prod.fst) : x = a ∨ x ∈ l.map Prod.fst := by
  induction l with
  | nil => simpa [insertList] using h
  | cons e rest ih =>
    unfold insertList at h
    split at h
    · simpa using h
    · exact Or.inr (by simpa using h)
    · rw [List.map_cons, List.mem_cons] at h
      rcases h with rfl | h
      · simp
      · rcases ih h with h | h
        · exact Or.inl h
        · exact Or.inr (List.mem_cons_of_mem _ h)

theorem insertListSorted [Std.TransOrd α] (a : α) (b : β) {l : List (α × β)}
    (h : l.Pairwise fun a b => compare a.1 b.1 = .lt) :
    (insertList a b l).Pairwise fun a b => compare a.1 b.1 = .lt := by
  induction l with
  | nil => simp [insertList]
  | cons e rest ih =>
    have below := (List.pairwise_cons.1 h).1
    have tail := (List.pairwise_cons.1 h).2
    unfold insertList
    split
    · rename_i less
      refine List.pairwise_cons.2 ⟨?_, h⟩
      intro x hx
      rcases List.mem_cons.1 hx with rfl | hx
      · exact less
      · exact Std.TransCmp.lt_trans less (below x hx)
    · exact List.pairwise_cons.2 ⟨below, tail⟩
    · rename_i greater
      refine List.pairwise_cons.2 ⟨?_, ih tail⟩
      intro x hx
      rcases keyOfInsertList (List.mem_map_of_mem hx) with same | inRest
      · rw [same]
        exact Std.OrientedCmp.gt_iff_lt.1 greater
      · obtain ⟨y, hy, same⟩ := List.mem_map.1 inRest
        rw [← same]
        exact below y hy

def insert [Std.TransOrd α] (m : SortedMap α β) (a : α) (b : β) : SortedMap α β :=
  ⟨insertList a b m.entries, insertListSorted a b m.sorted⟩

def ofList [Std.TransOrd α] (es : List (α × β)) : SortedMap α β :=
  es.foldl (fun m e => m.insert e.1 e.2) empty

def erase (m : SortedMap α β) (a : α) : SortedMap α β :=
  ⟨m.entries.filter fun e => compare a e.1 != .eq, m.sorted.sublist List.filter_sublist⟩

end SortedMap
end ForkingLR
