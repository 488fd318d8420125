/-! Semantic values: what reductions compute. -/
namespace ForkingLR

/-- A value type that can hold and take apart lists. The default stands for "no value". -/
class SemanticValue (V : Type) extends Inhabited V where
  ofItems : List V → V
  toItems : V → List V

structure Binary64 where
  bits : UInt64
  deriving DecidableEq, Repr

namespace Binary64

def magnitude (x : Binary64) : UInt64 := x.bits &&& 0x7FFFFFFFFFFFFFFF

def isNaN (x : Binary64) : Bool := decide (0x7FF0000000000000 < x.magnitude)

def same (x y : Binary64) : Bool :=
  !x.isNaN && !y.isNaN && (x.bits == y.bits || (x.magnitude == 0 && y.magnitude == 0))

end Binary64

inductive Value where
  | nil
  | bool (b : Bool)
  | int (n : Int64)
  | float (x : Binary64)
  | str (s : String)
  | list (items : List Value)
  deriving Inhabited

namespace Value

def ofItems (items : List Value) : Value := .list items

def toItems : Value → List Value
  | .list items => items
  | .nil => []
  | v => [v]

instance : SemanticValue Value where
  default := .nil
  ofItems := ofItems
  toItems := toItems

def int? : Value → Option Int64
  | .int n => some n
  | _ => none

def str? : Value → Option String
  | .str s => some s
  | _ => none

def list? : Value → Option (List Value)
  | .list items => some items
  | _ => none

def isNil : Value → Bool
  | .nil => true
  | _ => false

mutual

def same : Value → Value → Bool
  | .nil, .nil => true
  | .bool a, .bool b => a == b
  | .int a, .int b => a == b
  | .float a, .float b => a.same b
  | .str a, .str b => a == b
  | .list a, .list b => sameItems a b
  | _, _ => false

def sameItems : List Value → List Value → Bool
  | [], [] => true
  | a :: as, b :: bs => same a b && sameItems as bs
  | _, _ => false

end

end Value
end ForkingLR
