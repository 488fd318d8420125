import ForkingLR.Grammar.Helper

/-! Finished grammars. The last production is the augmented one, and every nonterminal that a
production uses has productions. -/
namespace ForkingLR

structure Grammar where
  symbols : SymbolTable
  productions : List (Production Symbol)
  origins : List Origin
  precedence : PrecedenceTable
  start : Symbol
  deriving DecidableEq

namespace Grammar

def size (g : Grammar) : Nat := g.productions.length

def name (g : Grammar) (symbol : Symbol) : String := g.symbols.name symbol

def cfg (g : Grammar) : Cfg Symbol := ⟨g.productions, some .augmentedStart, .endOfInput⟩

def production? (g : Grammar) (id : Nat) : Option (Production Symbol) := g.productions[id]?

def origin? (g : Grammar) (id : Nat) : Option Origin := g.origins[id]?

def startProduction (g : Grammar) : Nat := g.size - 1

def usesError (g : Grammar) : Bool := g.productions.any fun p => p.rhs.contains .error

def terminals (g : Grammar) : List Symbol := (g.cfg.terminals.insert .endOfInput).toList

def productionPrecedence? (g : Grammar) (id : Nat) : Option Precedence := do
  let p ← g.production? id
  g.precedence.ofProduction? id p

end Grammar

namespace Draft

def undefined? (d : Draft) : Option Symbol :=
  (d.productions.flatMap Production.rhs).find? fun s => !isTerminal s && !d.defines s

def build (d : Draft) : Except ConstructionError Grammar := do
  if d.rules.isEmpty then throw .emptyGrammar
  let some start := d.start? | throw .emptyGrammar
  if !d.defines start then throw (.grammar (.invalidStart (d.name start)))
  if let some symbol := d.undefined? then throw (.undefinedNonterminal (d.name symbol))
  pure {
    symbols := d.symbols
    productions := d.productions ++ [⟨.augmentedStart, [start]⟩]
    origins := d.rules.map Rule.origin ++ [.start]
    precedence := d.precedence
    start }

end Draft
end ForkingLR
