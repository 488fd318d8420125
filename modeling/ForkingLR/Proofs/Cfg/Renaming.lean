import ForkingLR.Proofs.Cfg.Rewriting
import ForkingLR.Proofs.Lists

/-! Grammars that differ in their symbols only. What vanishes, begins and follows in one grammar does so
in every grammar that has the same productions of related symbols. -/
namespace ForkingLR

structure Production.Alike {σ τ : Type} (R : σ → τ → Prop) (p : Production σ) (q : Production τ) : Prop where
  lhs : R p.lhs q.lhs
  rhs : List.Forall₂ R p.rhs q.rhs

theorem Production.Alike.placed {σ τ : Type} {R : σ → τ → Prop} {p : Production σ} {q : Production τ}
    (alike : p.Alike R q) {before after : List σ} {x : σ} (placed : p.rhs = before ++ x :: after) :
    ∃ before' y after', q.rhs = before' ++ y :: after' ∧ R x y ∧ List.Forall₂ R after after' := by
  have rhs := alike.rhs
  rw [placed] at rhs
  obtain ⟨front, back, _, tail, same⟩ := forallSplit rhs
  cases tail with
  | cons head tail => exact ⟨front, _, _, same, head, tail⟩

namespace Cfg
variable {σ τ : Type} [GrammarSymbol σ] [GrammarSymbol τ]

structure Mirrors (R : σ → τ → Prop) (g : Cfg σ) (h : Cfg τ) : Prop where
  unique : ∀ {x y y'}, R x y → R x y' → y = y'
  terminal : ∀ {x y}, R x y → isTerminal x = isTerminal y
  productions : ∀ p ∈ g.productions, ∃ q ∈ h.productions, p.Alike R q
  start : ∀ x, g.start = some x → ∃ y, h.start = some y ∧ R x y
  endMarker : R g.endMarker h.endMarker

variable {R : σ → τ → Prop} {g : Cfg σ} {h : Cfg τ} (mirrors : Mirrors R g h)
include mirrors

theorem Mirrors.vanishes {u : List σ} (gone : g.Vanishes u) :
    ∀ {v : List τ}, List.Forall₂ R u v → h.Vanishes v := by
  induction gone with
  | nil =>
    intro v same
    cases same
    exact .nil
  | @cons p rest inside first others ih ih' =>
    intro v same
    obtain ⟨q, inside', alike⟩ := mirrors.productions p inside
    cases same with
    | cons head tail =>
      obtain rfl := mirrors.unique alike.lhs head
      exact .cons inside' (ih alike.rhs) (ih' tail)

theorem Mirrors.begins {b : σ} {u : List σ} (begins : g.Begins b u) :
    ∀ {v : List τ}, List.Forall₂ R u v → ∃ c, R b c ∧ h.Begins c v := by
  induction begins with
  | here terminal =>
    intro v same
    cases same with
    | @cons _ c _ _ head tail => exact ⟨c, head, .here (mirrors.terminal head ▸ terminal)⟩
  | @inside p rest inside first ih =>
    intro v same
    obtain ⟨q, inside', alike⟩ := mirrors.productions p inside
    obtain ⟨c, related, first'⟩ := ih alike.rhs
    cases same with
    | cons head tail =>
      obtain rfl := mirrors.unique alike.lhs head
      exact ⟨c, related, .inside inside' first'⟩
  | later gone others ih =>
    intro v same
    cases same with
    | cons head tail =>
      obtain ⟨c, related, others'⟩ := ih tail
      exact ⟨c, related, .later (mirrors.vanishes gone (.cons head .nil)) others'⟩

theorem Mirrors.follows {x b : σ} (follows : g.Follows x b) :
    ∀ {y : τ}, R x y → ∃ c, R b c ∧ h.Follows y c := by
  induction follows with
  | start begun =>
    intro y related
    obtain ⟨y', begun', related'⟩ := mirrors.start _ begun
    obtain rfl := mirrors.unique related related'
    exact ⟨_, mirrors.endMarker, .start begun'⟩
  | @inside p before after x b inside placed next =>
    intro y related
    obtain ⟨q, inside', alike⟩ := mirrors.productions p inside
    obtain ⟨before', y', after', placed', related', rest⟩ := alike.placed placed
    obtain rfl := mirrors.unique related related'
    obtain ⟨c, same, next'⟩ := mirrors.begins next rest
    exact ⟨c, same, .inside inside' placed' next'⟩
  | @tail p before after x b inside placed gone outer ih =>
    intro y related
    obtain ⟨q, inside', alike⟩ := mirrors.productions p inside
    obtain ⟨before', y', after', placed', related', rest⟩ := alike.placed placed
    obtain rfl := mirrors.unique related related'
    obtain ⟨c, same, outer'⟩ := ih alike.lhs
    exact ⟨c, same, .tail inside' placed' (mirrors.vanishes gone rest) outer'⟩

end Cfg
end ForkingLR
