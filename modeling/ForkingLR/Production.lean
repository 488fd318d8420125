import ForkingLR.Symbol

/-! Productions and why each of them exists. -/
namespace ForkingLR

structure Production (σ : Type) where
  lhs : σ
  rhs : List σ
  deriving DecidableEq, Repr

def Production.lastTerminal? {σ : Type} [GrammarSymbol σ] (p : Production σ) : Option σ :=
  p.rhs.reverse.find? isTerminal

inductive HelperRole where
  | optionalEmpty
  | optionalPresent
  | listEmpty
  | listNonempty
  | nonemptySingle
  | nonemptyCons (separated : Bool)
  deriving DecidableEq, Repr

inductive Origin where
  | declared
  | start
  | helper (role : HelperRole)
  deriving DecidableEq, Repr

end ForkingLR
