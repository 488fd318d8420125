import ForkingLR.Text.Blank
import ForkingLR.Error

/-! Right-hand sides as authors write them: words between blanks, each a name with an optional
leading dot and an optional trailing operator. -/
namespace ForkingLR

inductive Operator where
  | optional
  | list
  | nonemptyList
  deriving DecidableEq, Repr

namespace Operator

def ofChar? : Char → Option Operator
  | '?' => some .optional
  | '*' => some .list
  | '+' => some .nonemptyList
  | _ => none

def toChar : Operator → Char
  | .optional => '?'
  | .list => '*'
  | .nonemptyList => '+'

end Operator

namespace Rhs

structure Term where
  name : String
  op : Option Operator
  selected : Bool
  deriving DecidableEq, Repr

def isSpecial (c : Char) : Bool := c == '.' || c == '?' || c == '*' || c == '+'

def splitDot : List Char → Bool × List Char
  | '.' :: rest => (true, rest)
  | word => (false, word)

def splitOperator (word : List Char) : List Char × Option Operator :=
  match word.getLast?.bind Operator.ofChar? with
  | some op => (word.dropLast, some op)
  | none => (word, none)

def Term.ofWord (word : List Char) : Except WordFault Term :=
  let (selected, rest) := splitDot word
  let (name, op) := splitOperator rest
  if name.isEmpty then .error .missingName
  else if name.any isSpecial then .error .misplacedOperator
  else .ok ⟨String.ofList name, op, selected⟩

def Term.toWord (t : Term) : List Char :=
  (if t.selected then ['.'] else []) ++ t.name.toList ++ (t.op.map Operator.toChar).toList

def ofWords (expression : String) : List (List Char) → Except GrammarError (List Term)
  | [] => .ok []
  | word :: rest =>
    match Term.ofWord word with
    | .error fault => .error (.malformedExpression expression (String.ofList word) fault)
    | .ok term => (ofWords expression rest).map (term :: ·)

def parse (expression : String) : Except GrammarError (List Term) :=
  ofWords expression (Text.words expression.toList)

def print (terms : List Term) : String :=
  String.ofList ([' '].intercalate (terms.map Term.toWord))

end Rhs
end ForkingLR
