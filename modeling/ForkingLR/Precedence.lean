import ForkingLR.Production
import ForkingLR.Sorted.Map

/-! Precedence levels. Later declarations bind tighter, and a terminal is declared once. -/
namespace ForkingLR

inductive Associativity where
  | left
  | right
  | nonAssoc
  deriving DecidableEq, Repr

structure Precedence where
  level : Nat
  assoc : Associativity
  deriving DecidableEq, Repr

structure PrecedenceTable where
  lastLevel : Nat := 0
  terminals : SortedMap Symbol Precedence := ∅
  overrides : SortedMap Nat Symbol := ∅
  deriving DecidableEq

namespace PrecedenceTable

def isEmpty (t : PrecedenceTable) : Bool := t.terminals.entries.isEmpty

def declare (t : PrecedenceTable) (assoc : Associativity) (symbols : List Symbol) :
    Except Symbol (Nat × PrecedenceTable) :=
  match symbols.find? fun s => (t.terminals.get? s).isSome with
  | some taken => .error taken
  | none =>
    let level := t.lastLevel + 1
    .ok (level, { t with
      lastLevel := level
      terminals := symbols.foldl (fun m s => m.insert s ⟨level, assoc⟩) t.terminals })

def override (t : PrecedenceTable) (production : Nat) (terminal : Symbol) : PrecedenceTable :=
  { t with overrides := t.overrides.insert production terminal }

def ofTerminal? (t : PrecedenceTable) (symbol : Symbol) : Option Precedence :=
  if isTerminal symbol then t.terminals.get? symbol else none

def ofProduction? (t : PrecedenceTable) (id : Nat) (p : Production Symbol) : Option Precedence := do
  let terminal ← (t.overrides.get? id).or p.lastTerminal?
  t.terminals.get? terminal

def declared (t : PrecedenceTable) : List (Symbol × Precedence) :=
  t.terminals.entries.mergeSort fun a b => decide (a.2.level ≤ b.2.level)

end PrecedenceTable
end ForkingLR
