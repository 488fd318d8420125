import ForkingLR.Cfg.Analysis

/-! A grammar that keeps its analysis from one question to the next. The first question that needs
the analysis makes it; whatever changes the grammar drops it. -/
namespace ForkingLR

structure MemoCfg (σ : Type) [Ord σ] where
  grammar : Cfg σ
  kept : Option (Cfg.Analysis σ) := none

namespace MemoCfg
variable {σ : Type} [DecidableEq σ] [Ord σ]

def new (endMarker : σ) : MemoCfg σ := ⟨{ endMarker }, none⟩

def add (m : MemoCfg σ) (lhs : σ) (rhs : List σ) : MemoCfg σ := ⟨m.grammar.add lhs rhs, none⟩

def setStart (m : MemoCfg σ) (start : σ) : MemoCfg σ :=
  if m.grammar.start = some start then m else ⟨m.grammar.withStart start, none⟩

variable [Std.TransOrd σ] [GrammarSymbol σ]

def analysis (m : MemoCfg σ) : Cfg.Analysis σ :=
  match m.kept with
  | some a => a
  | none => m.grammar.analysis

def analysed (m : MemoCfg σ) : MemoCfg σ := { m with kept := some m.analysis }

def nullable (m : MemoCfg σ) (x : σ) : Bool × MemoCfg σ :=
  if isTerminal x then (false, m)
  else
    let m := m.analysed
    (m.analysis.nullable x, m)

def first (m : MemoCfg σ) (xs : List σ) : FirstSet σ × MemoCfg σ :=
  let m := m.analysed
  (m.analysis.first xs, m)

def follow (m : MemoCfg σ) (x : σ) : SortedSet σ × MemoCfg σ :=
  let m := m.analysed
  (m.analysis.follow x, m)

end MemoCfg
end ForkingLR
