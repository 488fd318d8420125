import ForkingLR.Production

/-! LR(0) items: a production with a dot in its right-hand side. -/
namespace ForkingLR

structure Item where
  production : Nat
  dot : Nat
  deriving DecidableEq, Repr

namespace Item

instance : Ord Item :=
  ⟨fun a b => (compare a.production b.production).then (compare a.dot b.dot)⟩

instance : Std.TransOrd Item :=
  inferInstanceAs (Std.TransCmp (compareLex (compareOn Item.production) (compareOn Item.dot)))

instance : Std.LawfulEqOrd Item where
  eq_of_compare {a b} h := by
    have both := Ordering.then_eq_eq.1 (show (compare a.production b.production).then
      (compare a.dot b.dot) = .eq from h)
    have production := Std.LawfulEqOrd.eq_of_compare both.1
    have dot := Std.LawfulEqOrd.eq_of_compare both.2
    cases a
    cases b
    cases production
    cases dot
    rfl

variable {σ : Type}

def next? (productions : List (Production σ)) (item : Item) : Option σ := do
  let p ← productions[item.production]?
  p.rhs[item.dot]?

def atEnd (productions : List (Production σ)) (item : Item) : Bool :=
  match productions[item.production]? with
  | some p => decide (p.rhs.length ≤ item.dot)
  | none => false

def advance (item : Item) : Item := ⟨item.production, item.dot + 1⟩

end Item
end ForkingLR
