import ForkingLR.Cfg
import ForkingLR.Precedence
import ForkingLR.Rhs
import ForkingLR.Symbol.Table

/-! A grammar while its author writes it. An edit that fails answers with its cause and leaves
the draft as far as the edit had come, so names may stay interned after a failure. -/
namespace ForkingLR

/-- A request for a synthesised nonterminal; equal requests share one. -/
structure HelperKey where
  op : Operator
  base : Symbol
  separator : Option Symbol
  deriving DecidableEq, Repr

structure Rule where
  production : Production Symbol
  origin : Origin
  deriving DecidableEq, Repr

structure Draft where
  symbols : SymbolTable := .new
  rules : List Rule := []
  helpers : List (HelperKey × Symbol) := []
  precedence : PrecedenceTable := {}
  declaredStart : Option Symbol := none
  deriving DecidableEq

abbrev Edit (α : Type) := EStateM GrammarError Draft α

namespace Draft

def empty : Draft := {}

def size (d : Draft) : Nat := d.rules.length

def productions (d : Draft) : List (Production Symbol) := d.rules.map Rule.production

def start? (d : Draft) : Option Symbol :=
  d.declaredStart.or
    ((d.rules.find? fun r => r.origin = .declared).map fun r => r.production.lhs)

def cfg (d : Draft) : Cfg Symbol := ⟨d.productions, d.start?, .endOfInput⟩

def origin? (d : Draft) (id : Nat) : Option Origin := d.rules[id]?.map Rule.origin

def defines (d : Draft) (lhs : Symbol) : Bool := d.rules.any fun r => r.production.lhs = lhs

def name (d : Draft) (symbol : Symbol) : String := d.symbols.name symbol

def onSymbols {α : Type} (edit : EStateM GrammarError SymbolTable α) : Edit α := fun d =>
  match edit d.symbols with
  | .ok a symbols => .ok a { d with symbols }
  | .error e symbols => .error e { d with symbols }

def intern (name : String) : Edit Symbol := onSymbols (SymbolTable.intern name)

def internTerminal (name : String) : Edit Symbol := onSymbols (SymbolTable.internTerminal name)

def internNonterminal (name : String) : Edit Symbol :=
  onSymbols (SymbolTable.internNonterminal name)

def push (lhs : Symbol) (rhs : List Symbol) (origin : Origin) : Edit Nat := fun d =>
  .ok d.size { d with rules := d.rules ++ [⟨⟨lhs, rhs⟩, origin⟩] }

def declare (lhs : String) (rhs : List String) : Edit Nat := do
  let lhs ← internNonterminal lhs
  let rhs ← rhs.mapM intern
  push lhs rhs .declared

def declareSymbols (lhs : Symbol) (rhs : List Symbol) : Edit Nat := do
  if isTerminal lhs || lhs = .augmentedStart then
    throw (.expectedNonterminal ((← get).name lhs))
  push lhs rhs .declared

def setStart (name : String) : Edit Symbol := fun d =>
  match intern name d with
  | .ok symbol d =>
    if isTerminal symbol then .error (.invalidStart name) d
    else .ok symbol { d with declaredStart := some symbol }
  | .error _ d => .error (.invalidStart name) d

def declarePrecedence (assoc : Associativity) (terminals : List String) : Edit Nat := do
  let symbols ← terminals.mapM internTerminal
  let d ← get
  match d.precedence.declare assoc symbols with
  | .ok (level, precedence) =>
    set { d with precedence }
    pure level
  | .error taken => throw (.precedenceRedeclared (d.name taken))

def setProductionPrecedence (id : Nat) (terminal : String) : Edit Unit := do
  if (← get).size ≤ id then throw (.unknownProduction id)
  let symbol ← internTerminal terminal
  modify fun d => { d with precedence := d.precedence.override id symbol }

end Draft
end ForkingLR
