/-! Input tokens and where they stand in the text. -/
namespace ForkingLR

structure Position where
  offset : Nat := 0
  line : Nat := 0
  lineOffset : Nat := 0
  length : Nat := 0
  deriving DecidableEq, Repr, Inhabited

namespace Position

def finish (p : Position) : Nat := p.offset + p.length

def following (p : Position) : Position := ⟨p.finish, p.line, p.lineOffset + p.length, 0⟩

def span (first last : Position) : Position :=
  ⟨first.offset, first.line, first.lineOffset, last.finish - first.offset⟩

end Position

structure Token (V : Type) where
  kind : String
  value : Option V := none
  position : Option Position := none
  deriving DecidableEq, Repr

namespace Token
variable {V : Type}

def endOfInput : Token V := { kind := "EOS" }

def isEnd (t : Token V) : Bool := t.kind == "EOS"

def same (same : V → V → Bool) (a b : Token V) : Bool :=
  a.kind == b.kind && a.position == b.position &&
    match a.value, b.value with
    | none, none => true
    | some x, some y => same x y
    | _, _ => false

end Token
end ForkingLR
