import ForkingLR.Table.Tagged

/-! Reduction lookaheads: which terminals may come next when a state reduces a production. -/
namespace ForkingLR

structure Reduction where
  state : Nat
  production : Nat
  deriving DecidableEq, Repr

namespace Reduction

instance : Ord Reduction :=
  ⟨fun a b => (compare a.state b.state).then (compare a.production b.production)⟩

instance : Std.TransOrd Reduction :=
  inferInstanceAs (Std.TransCmp
    (compareLex (compareOn Reduction.state) (compareOn Reduction.production)))

instance : Std.LawfulEqOrd Reduction where
  eq_of_compare {a b} h := by
    have both := Ordering.then_eq_eq.1 (show (compare a.state b.state).then
      (compare a.production b.production) = .eq from h)
    have state := Std.LawfulEqOrd.eq_of_compare both.1
    have production := Std.LawfulEqOrd.eq_of_compare both.2
    cases a
    cases b
    cases state
    cases production
    rfl

end Reduction

abbrev Lookaheads := SortedMap Reduction (SortedSet Symbol)

def Lookaheads.extend (m : Lookaheads) (e : Reduction × SortedSet Symbol) : Lookaheads :=
  m.insert e.1 (m.getD e.1 ∅ ∪ e.2)

namespace Grammar

def contribution (g : Grammar) (states : List State) (follows : Cfg.Analysis TaggedSymbol)
    (lhs : TaggedSymbol) : Except Fault (List (Reduction × SortedSet Symbol)) :=
  let follow := TaggedGrammar.untaggedFollow follows lhs
  (g.cfg.productionsFor lhs.symbol).mapM fun e => do
    let state ← g.walk states lhs.state e.1.rhs
    pure (⟨state, e.2⟩, follow)

def lookaheads (g : Grammar) (states : List State) : Except Fault Lookaheads := do
  let tagged ← TaggedGrammar.derive g states
  let follows := tagged.cfg.analysis
  let contributions ← tagged.nonterminals.mapM (g.contribution states follows)
  pure (contributions.flatten.foldl Lookaheads.extend ∅)

end Grammar
end ForkingLR
