/-! First-in first-out queues. A queue is read through `toList`, oldest element first. -/
namespace ForkingLR

structure Queue (α : Type) where
  front : List α := []
  /-- Newest element first. -/
  back : List α := []
  size : Nat := 0
  sized : size = front.length + back.length := by rfl

namespace Queue
variable {α : Type}

def empty : Queue α := {}

instance : Inhabited (Queue α) := ⟨empty⟩

def toList (q : Queue α) : List α := q.front ++ q.back.reverse

def ofList (xs : List α) : Queue α := { front := xs, size := xs.length }

@[inline]
def push (q : Queue α) (a : α) : Queue α :=
  ⟨q.front, a :: q.back, q.size + 1, by simp [q.sized, Nat.add_assoc]⟩

@[inline]
def isEmpty (q : Queue α) : Bool := q.size == 0

@[inline]
def pop? (q : Queue α) : Option (α × Queue α) :=
  match h : q.front with
  | a :: front =>
    some (a, ⟨front, q.back, q.size - 1, by rw [q.sized, h, List.length_cons]; omega⟩)
  | [] =>
    match q.back.reverse with
    | [] => none
    | a :: front => some (a, ofList front)

@[simp]
theorem toListEmpty : (empty : Queue α).toList = [] := rfl

@[simp]
theorem toListOfList (xs : List α) : (ofList xs).toList = xs := by simp [ofList, toList]

@[simp]
theorem toListPush (q : Queue α) (a : α) : (q.push a).toList = q.toList ++ [a] := by
  simp [push, toList]

theorem sizeLength (q : Queue α) : q.size = q.toList.length := by
  simp [toList, q.sized]

theorem isEmptyIff (q : Queue α) : q.isEmpty ↔ q.toList = [] := by
  simp [isEmpty, sizeLength]

theorem popNoneIff (q : Queue α) : q.pop? = none ↔ q.toList = [] := by
  unfold pop? toList
  split
  · simp_all
  · split <;> simp_all

theorem toListOfPop {q rest : Queue α} {a : α} (h : q.pop? = some (a, rest)) :
    q.toList = a :: rest.toList := by
  unfold pop? at h
  split at h
  · rename_i front hf
    cases h
    simp [toList, hf]
  · rename_i hf
    split at h
    · contradiction
    · rename_i front hb
      cases h
      simp [toList, hf, hb, ofList]

end Queue
end ForkingLR
