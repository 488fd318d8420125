/-! Interned strings: each distinct string has one key, counted from 0 in order of arrival. -/
namespace ForkingLR

structure Interner where
  entries : List String := []
  nodup : entries.Nodup := by decide
  deriving DecidableEq

namespace Interner

def empty : Interner := {}

instance : Inhabited Interner := ⟨empty⟩

def size (t : Interner) : Nat := t.entries.length

def isEmpty (t : Interner) : Bool := t.entries.isEmpty

def key? (t : Interner) (s : String) : Option Nat := t.entries.idxOf? s

def resolve? (t : Interner) (key : Nat) : Option String := t.entries[key]?

def intern (t : Interner) (s : String) : Nat × Interner :=
  if h : s ∈ t.entries then (t.entries.idxOf s, t)
  else (t.size, ⟨t.entries ++ [s], List.nodup_append.2 ⟨t.nodup, by simp, by
    intro a ha b hb same
    rw [List.mem_singleton.1 hb] at same
    exact h (same ▸ ha)⟩⟩)

theorem entriesIntern (t : Interner) (s : String) :
    (t.intern s).2.entries = if s ∈ t.entries then t.entries else t.entries ++ [s] := by
  unfold intern
  split <;> simp_all

theorem entriesPrefix (t : Interner) (s : String) :
    t.entries <+: (t.intern s).2.entries := by
  rw [entriesIntern]
  split
  · exact List.prefix_rfl
  · exact List.prefix_append _ _

theorem memEntriesIntern (t : Interner) {s name : String} :
    name ∈ (t.intern s).2.entries ↔ name ∈ t.entries ∨ name = s := by
  rw [entriesIntern]
  split <;> simp_all

def describe (t : Interner) : String := "Interner \x7b len: " ++ toString t.size ++ " \x7d"

end Interner

structure FrozenInterner where
  contents : Interner
  deriving DecidableEq

def Interner.freeze (t : Interner) : FrozenInterner := ⟨t⟩

namespace FrozenInterner

def size (t : FrozenInterner) : Nat := t.contents.size

def isEmpty (t : FrozenInterner) : Bool := t.contents.isEmpty

def key? (t : FrozenInterner) (s : String) : Option Nat := t.contents.key? s

def resolve? (t : FrozenInterner) (key : Nat) : Option String := t.contents.resolve? key

def pairs (t : FrozenInterner) : List (Nat × String) :=
  t.contents.entries.zipIdx.map fun e => (e.2, e.1)

def describe (t : FrozenInterner) : String := "FrozenInterner \x7b len: " ++ toString t.size ++ " \x7d"

end FrozenInterner
end ForkingLR
