import ForkingLR.Json

/-! Typed views of JSON values. A record is an object with each field once, or the array of its
field values; a choice is a name, or an object with the name as its only key. -/
namespace ForkingLR.Json

def boolean? : Json → Option Bool
  | .bool b => some b
  | _ => none

def text? : Json → Option String
  | .string units => (decodeUnits units).map String.ofList
  | _ => none

def digitsValue (digits : List Char) : Nat :=
  digits.foldl (fun n c => n * 10 + (c.toNat - '0'.toNat)) 0

def natural? (bound : Nat) : Json → Option Nat
  | .number literal =>
    if literal.all Char.isDigit && decide (digitsValue literal < bound) then
      some (digitsValue literal)
    else none
  | _ => none

def list? {α : Type} (element : Json → Option α) : Json → Option (List α)
  | .array elements => elements.mapM element
  | _ => none

def pair? {α β : Type} (first : Json → Option α) (second : Json → Option β) :
    Json → Option (α × β)
  | .array [a, b] => do
    let a ← first a
    let b ← second b
    some (a, b)
  | _ => none

def field? (members : List (List Char × Json)) (name : String) : Option Json :=
  match members.filter fun m => m.1 = name.toList with
  | [m] => some m.2
  | _ => none

def fields? (names : List String) : Json → Option (List Json)
  | .object members => do
    let members ← members.mapM fun m => (decodeUnits m.1).map (·, m.2)
    names.mapM (field? members)
  | .array elements => if elements.length = names.length then some elements else none
  | _ => none

def variant? : Json → Option (String × Option Json)
  | .string units => (decodeUnits units).map (String.ofList ·, none)
  | .object [(key, content)] => (decodeUnits key).map (String.ofList ·, some content)
  | _ => none

end ForkingLR.Json
