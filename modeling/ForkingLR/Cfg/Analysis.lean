import ForkingLR.Cfg
import ForkingLR.Reach
import ForkingLR.Sorted.Map

/-! NULLABLE, FIRST and FOLLOW. Each is the least solution of its equations, reached by passes
over the productions until a pass adds nothing. -/
namespace ForkingLR

structure FirstSet (σ : Type) [Ord σ] where
  terminals : SortedSet σ
  epsilon : Bool

namespace Cfg
variable {σ : Type} [DecidableEq σ] [Ord σ] [Std.TransOrd σ] [GrammarSymbol σ]

abbrev SetTable (σ : Type) [Ord σ] := SortedMap σ (SortedSet σ)

def SetTable.extend (t : SetTable σ) (a : σ) (s : SortedSet σ) : SetTable σ :=
  t.insert a (t.getD a ∅ ∪ s)

structure FirstTable (σ : Type) [Ord σ] where
  nullable : SortedSet σ
  first : SetTable σ
  deriving DecidableEq

namespace FirstTable

def empty : FirstTable σ := ⟨∅, ∅⟩

def firstOf (t : FirstTable σ) : List σ → FirstSet σ
  | [] => ⟨∅, true⟩
  | x :: rest =>
    if isTerminal x then ⟨SortedSet.ofList [x], false⟩
    else if x ∈ t.nullable then
      let after := t.firstOf rest
      ⟨t.first.getD x ∅ ∪ after.terminals, after.epsilon⟩
    else ⟨t.first.getD x ∅, false⟩

def learn (t : FirstTable σ) (p : Production σ) : FirstTable σ :=
  let found := t.firstOf p.rhs
  ⟨if found.epsilon then t.nullable.insert p.lhs else t.nullable,
    SetTable.extend t.first p.lhs found.terminals⟩

end FirstTable

/-- More passes than there are facts to learn about left-hand sides and terminals. -/
def firstBound (g : Cfg σ) : Nat := g.size * (g.terminals.size + 2) + 1

def firstTable (g : Cfg σ) : FirstTable σ :=
  stabilise (fun t => g.productions.foldl FirstTable.learn t) g.firstBound FirstTable.empty

def trailerBefore (firsts : FirstTable σ) (x : σ) (trailer : SortedSet σ) : SortedSet σ :=
  if isTerminal x then SortedSet.ofList [x]
  else if x ∈ firsts.nullable then trailer ∪ firsts.first.getD x ∅
  else firsts.first.getD x ∅

/-- Walks a right-hand side from its end; the state is the table and what follows the symbols
already seen. -/
def followRhs (firsts : FirstTable σ) (rhs : List σ) (state : SetTable σ × SortedSet σ) :
    SetTable σ × SortedSet σ :=
  rhs.foldr (fun x state => (SetTable.extend state.1 x state.2, trailerBefore firsts x state.2)) state

def followPass (firsts : FirstTable σ) (productions : List (Production σ)) (t : SetTable σ) :
    SetTable σ :=
  productions.foldl (fun t p => (followRhs firsts p.rhs (t, t.getD p.lhs ∅)).1) t

def followBound (g : Cfg σ) : Nat :=
  ((g.productions.flatMap Production.rhs).length + 1) * (g.terminals.size + 2) + 1

def followTable (g : Cfg σ) (firsts : FirstTable σ) : SetTable σ :=
  stabilise (followPass firsts g.productions) g.followBound <|
    match g.start with
    | some s => SetTable.extend ∅ s (SortedSet.ofList [g.endMarker])
    | none => ∅

structure Analysis (σ : Type) [Ord σ] where
  firsts : FirstTable σ
  follows : SetTable σ

def analysis (g : Cfg σ) : Analysis σ :=
  let firsts := g.firstTable
  ⟨firsts, g.followTable firsts⟩

namespace Analysis

def nullable (a : Analysis σ) (x : σ) : Bool := !isTerminal x && decide (x ∈ a.firsts.nullable)

def first (a : Analysis σ) (xs : List σ) : FirstSet σ := a.firsts.firstOf xs

def follow (a : Analysis σ) (x : σ) : SortedSet σ := a.follows.getD x ∅

end Analysis

def nullable (g : Cfg σ) (x : σ) : Bool := g.analysis.nullable x

def first (g : Cfg σ) (xs : List σ) : FirstSet σ := g.analysis.first xs

def follow (g : Cfg σ) (x : σ) : SortedSet σ := g.analysis.follow x

end Cfg
end ForkingLR
