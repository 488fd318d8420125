import ForkingLR.Grammar.Draft

/-! Operators of the right-hand side language. Each optional, list and nonempty list of a symbol
is a nonterminal of its own, synthesised once per operator, base and separator, or defined under
a name the author gives. -/
namespace ForkingLR

structure Expansion where
  symbols : List Symbol
  selection : Option (List Bool)
  deriving DecidableEq, Repr

namespace Draft

def stemSuffix : Operator → String
  | .optional => "_optional"
  | .list => "_list"
  | .nonemptyList => "_nonempty_list"

def stem (d : Draft) (key : HelperKey) : String :=
  (d.name key.base).toLower ++
    (match key.separator with
      | some separator => "_" ++ (d.name separator).toLower
      | none => "") ++
    stemSuffix key.op

def candidate (stem : String) : Nat → String
  | 0 => stem
  | n + 1 => stem ++ "_" ++ toString (n + 2)

/-- The first candidate that is no symbol yet. There are more candidates than symbols. -/
def freshName (d : Draft) (stem : String) : String :=
  (((List.range (d.symbols.size + 1)).map (candidate stem)).find? fun name =>
    (d.symbols.lookup? name).isNone).getD stem

def helper (key : HelperKey) (define : Symbol → Edit Unit) : Edit Symbol := do
  let d ← get
  match d.helpers.lookup key with
  | some existing => pure existing
  | none =>
    let symbol ← internNonterminal (d.freshName (d.stem key))
    modify fun d => { d with helpers := d.helpers ++ [(key, symbol)] }
    define symbol
    pure symbol

def pushOptional (lhs base : Symbol) : Edit Unit := do
  discard (push lhs [] (.helper .optionalEmpty))
  discard (push lhs [base] (.helper .optionalPresent))

def pushNonempty (lhs base : Symbol) (separator : Option Symbol) : Edit Unit := do
  discard (push lhs [base] (.helper .nonemptySingle))
  discard (push lhs (base :: separator.toList ++ [lhs])
    (.helper (.nonemptyCons separator.isSome)))

def pushList (lhs nonempty : Symbol) : Edit Unit := do
  discard (push lhs [] (.helper .listEmpty))
  discard (push lhs [nonempty] (.helper .listNonempty))

def optional (base : Symbol) : Edit Symbol :=
  helper ⟨.optional, base, none⟩ fun lhs => pushOptional lhs base

def nonemptyList (base : Symbol) (separator : Option Symbol) : Edit Symbol :=
  helper ⟨.nonemptyList, base, separator⟩ fun lhs => pushNonempty lhs base separator

def list (base : Symbol) (separator : Option Symbol) : Edit Symbol :=
  helper ⟨.list, base, separator⟩ fun lhs => do
    let nonempty ← nonemptyList base separator
    pushList lhs nonempty

def freshDefinition (name : String) : Edit Symbol := do
  let lhs ← internNonterminal name
  if (← get).defines lhs then throw (.alreadyDefined name)
  pure lhs

def internSeparator : Option String → Edit (Option Symbol)
  | none => pure none
  | some name => do
    let symbol ← intern name
    pure (some symbol)

def defineOptional (name base : String) : Edit Symbol := do
  let lhs ← freshDefinition name
  let base ← intern base
  pushOptional lhs base
  pure lhs

def defineList (name base : String) (separator : Option String) : Edit Symbol := do
  let lhs ← freshDefinition name
  let base ← intern base
  let separator ← internSeparator separator
  let nonempty ← nonemptyList base separator
  pushList lhs nonempty
  pure lhs

def defineNonemptyList (name base : String) (separator : Option String) : Edit Symbol := do
  let lhs ← freshDefinition name
  let base ← intern base
  let separator ← internSeparator separator
  pushNonempty lhs base separator
  pure lhs

def expandTerm (term : Rhs.Term) : Edit Symbol := do
  let base ← intern term.name
  match term.op with
  | none => pure base
  | some .optional => optional base
  | some .list => list base none
  | some .nonemptyList => nonemptyList base none

def expand (expression : String) : Edit Expansion := do
  match Rhs.parse expression with
  | .error e => throw e
  | .ok terms =>
    let symbols ← terms.mapM expandTerm
    let selection := terms.map Rhs.Term.selected
    pure ⟨symbols, if selection.any id then some selection else none⟩

def declareRule (lhs expression : String) : Edit Nat := do
  let lhs ← internNonterminal lhs
  let expansion ← expand expression
  declareSymbols lhs expansion.symbols

end Draft
end ForkingLR
