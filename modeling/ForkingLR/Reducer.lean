import ForkingLR.Production
import ForkingLR.Value

/-! What a reduction computes from the values of its right-hand side. -/
namespace ForkingLR

inductive ArgStyle where
  | splat
  | array
  deriving DecidableEq, Repr

inductive Reducer (V : Type) where
  | action (apply : List V → V) (selection : Option (List Bool))
  | helper (role : HelperRole)
  | forward

def selectValues {V : Type} (selection : Option (List Bool)) (values : List V) : List V :=
  match selection with
  | none => values
  | some mask => ((values.zip mask).filter Prod.snd).map Prod.fst

namespace Reducer
variable {V : Type} [SemanticValue V]

def firstValue (values : List V) : V := values.head?.getD default

def applyHelper (role : HelperRole) (values : List V) : V :=
  match role with
  | .optionalEmpty => default
  | .listEmpty => SemanticValue.ofItems []
  | .optionalPresent => firstValue values
  | .listNonempty => firstValue values
  | .nonemptySingle => SemanticValue.ofItems (values.take 1)
  | .nonemptyCons _ =>
    SemanticValue.ofItems
      (firstValue values :: SemanticValue.toItems ((values.drop 1).getLast?.getD default))

def apply (r : Reducer V) (style : ArgStyle) (values : List V) : V :=
  match r with
  | .action f selection =>
    match style with
    | .splat => f (selectValues selection values)
    | .array => f [SemanticValue.ofItems (selectValues selection values)]
  | .helper role => applyHelper role values
  | .forward => firstValue values

end Reducer
end ForkingLR
