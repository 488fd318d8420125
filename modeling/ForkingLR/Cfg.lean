import ForkingLR.Production
import ForkingLR.Sorted.Set

/-! Context-free grammars over any symbol type. A production is named by its position. -/
namespace ForkingLR

structure Cfg (σ : Type) where
  productions : List (Production σ) := []
  start : Option σ := none
  endMarker : σ

namespace Cfg
variable {σ : Type} [DecidableEq σ]

def add (g : Cfg σ) (lhs : σ) (rhs : List σ) : Cfg σ :=
  { g with productions := g.productions ++ [⟨lhs, rhs⟩] }

def withStart (g : Cfg σ) (start : σ) : Cfg σ := { g with start := some start }

def size (g : Cfg σ) : Nat := g.productions.length

def isEmpty (g : Cfg σ) : Bool := g.productions.isEmpty

def productionsFor (g : Cfg σ) (lhs : σ) : List (Production σ × Nat) :=
  g.productions.zipIdx.filter fun e => e.1.lhs = lhs

def defines (g : Cfg σ) (lhs : σ) : Bool := g.productions.any fun p => p.lhs = lhs

def nonterminals (g : Cfg σ) : List σ := (g.productions.map Production.lhs).eraseDups

def terminals [GrammarSymbol σ] [Ord σ] [Std.TransOrd σ] (g : Cfg σ) : SortedSet σ :=
  SortedSet.ofList ((g.productions.flatMap Production.rhs).filter isTerminal)

end Cfg
end ForkingLR
