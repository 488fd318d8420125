import ForkingLR.Proofs.Cfg.Renaming
import ForkingLR.Proofs.Table.Lookahead
import ForkingLR.Proofs.Table.Rows

/-! Tables that correspond. Symbols, productions and states of one grammar are related to those of another,
and related states hold related items and move to related states. Then they look ahead to related
terminals and offer related actions. -/
namespace ForkingLR

structure Renaming (R : Symbol → Symbol → Prop) : Prop where
  unique : ∀ {x x' y y'}, R x y → R x' y' → (x = x' ↔ y = y')
  terminal : ∀ {x y}, R x y → isTerminal x = isTerminal y
  endOfInput : R .endOfInput .endOfInput
  error : R .error .error
  augmentedStart : R .augmentedStart .augmentedStart

theorem Renaming.symm {R : Symbol → Symbol → Prop} (h : Renaming R) : Renaming fun y x => R x y :=
  ⟨fun first second => (h.unique first second).symm, fun related => (h.terminal related).symm,
    h.endOfInput, h.error, h.augmentedStart⟩

inductive Action.Alike (N S : Nat → Nat → Prop) : Action → Action → Prop
  | shift {s t : Nat} (target : S s t) : Alike N S (.shift s) (.shift t)
  | reduce {id id' : Nat} (number : N id id') : Alike N S (.reduce id) (.reduce id')
  | goto {s t : Nat} (target : S s t) : Alike N S (.goto s) (.goto t)
  | accept : Alike N S .accept .accept

theorem Action.Alike.symm {N S : Nat → Nat → Prop} {action action' : Action} (alike : action.Alike N S action') :
    action'.Alike (fun k id => N id k) (fun t s => S s t) action := by
  cases alike with
  | shift target => exact .shift target
  | reduce number => exact .reduce number
  | goto target => exact .goto target
  | accept => exact .accept

theorem Action.Alike.unique {N S : Nat → Nat → Prop} {action one two : Action} (alike : action.Alike N S one)
    (alike' : action.Alike N S two) (numbers : ∀ {id k k'}, N id k → N id k' → k = k')
    (states : ∀ {s t t'}, S s t → S s t' → t = t') : one = two := by
  cases alike with
  | shift target =>
    cases alike' with
    | shift target' => rw [states target target']
  | reduce number =>
    cases alike' with
    | reduce number' => rw [numbers number number']
  | goto target =>
    cases alike' with
    | goto target' => rw [states target target']
  | accept =>
    cases alike' with
    | accept => rfl

namespace Grammar
open Table

structure Includes (R : Symbol → Symbol → Prop) (N : Nat → Nat → Prop) (g h : Grammar) : Prop where
  names : Renaming R
  wellFormed : g.WellFormed
  wellFormed' : h.WellFormed
  productions : ∀ {id p}, g.productions[id]? = some p →
    ∃ k q, N id k ∧ h.productions[k]? = some q ∧ p.Alike R q
  numbers : ∀ {id k k'}, N id k → N id k' → k = k'

namespace Includes
variable {R : Symbol → Symbol → Prop} {N : Nat → Nat → Prop} {g h : Grammar} (includes : Includes R N g h)
include includes

theorem production {id k : Nat} {p : Production Symbol} (number : N id k)
    (found : g.productions[id]? = some p) : ∃ q, h.productions[k]? = some q ∧ p.Alike R q := by
  obtain ⟨k', q, number', found', alike⟩ := includes.productions found
  obtain rfl := includes.numbers number number'
  exact ⟨q, found', alike⟩

theorem listed {p : Production Symbol} (inside : p ∈ g.productions) : ∃ q ∈ h.productions, p.Alike R q := by
  obtain ⟨id, found⟩ := List.mem_iff_getElem?.1 inside
  obtain ⟨_, q, _, found', alike⟩ := includes.productions found
  exact ⟨q, List.mem_of_getElem? found', alike⟩

theorem startProduction {k : Nat} (number : N g.startProduction k) : k = h.startProduction := by
  obtain ⟨q, found, alike⟩ := includes.production number includes.wellFormed.startProduction
  have lhs := (includes.names.unique includes.names.augmentedStart alike.lhs).1 rfl
  exact includes.wellFormed'.startOnly found lhs.symm

theorem otherProduction {id : Nat} (number : N id h.startProduction) {p : Production Symbol}
    (found : g.productions[id]? = some p) : id = g.startProduction := by
  obtain ⟨q, found', alike⟩ := includes.production number found
  obtain rfl := Option.some.inj (includes.wellFormed'.startProduction.symm.trans found')
  exact includes.wellFormed.startOnly found ((includes.names.unique alike.lhs includes.names.augmentedStart).2 rfl)

theorem next {id k dot : Nat} (number : N id k) {x : Symbol}
    (next : Item.next? g.productions ⟨id, dot⟩ = some x) :
    ∃ y, Item.next? h.productions ⟨k, dot⟩ = some y ∧ R x y := by
  obtain ⟨p, found, here⟩ := Item.nextIff.1 next
  obtain ⟨q, found', alike⟩ := includes.production number found
  obtain ⟨y, here', related⟩ := forallAt alike.rhs here
  exact ⟨y, Item.nextIff.2 ⟨q, found', here'⟩, related⟩

theorem terminal {x : Symbol} (known : x ∈ g.terminals) : ∃ y ∈ h.terminals, R x y := by
  rcases memTerminals.1 known with rfl | ⟨terminal, p, inside, used⟩
  · exact ⟨_, memTerminals.2 (.inl rfl), includes.names.endOfInput⟩
  · obtain ⟨q, inside', alike⟩ := includes.listed inside
    obtain ⟨y, used', related⟩ := (forallMem alike.rhs).1 x used
    have terminal' := includes.names.terminal related ▸ terminal
    exact ⟨y, memTerminals.2 (.inr ⟨terminal', q, inside', used'⟩), related⟩

theorem usesError (uses : g.usesError = true) : h.usesError = true := by
  simp only [Grammar.usesError, List.any_eq_true, List.contains_iff_mem] at uses ⊢
  obtain ⟨p, inside, used⟩ := uses
  obtain ⟨q, inside', alike⟩ := includes.listed inside
  obtain ⟨y, used', related⟩ := (forallMem alike.rhs).1 _ used
  obtain rfl := (includes.names.unique includes.names.error related).1 rfl
  exact ⟨q, inside', used'⟩

theorem moved {s t : Nat} {x : Symbol} (move : Moves g.lr0States s x t) : ∃ y, R x y := by
  obtain ⟨i, _, next⟩ := nextOfMoves includes.wellFormed move
  obtain ⟨p, found, spot⟩ := Item.nextIff.1 next
  obtain ⟨q, _, alike⟩ := includes.listed (List.mem_of_getElem? found)
  obtain ⟨y, _, related⟩ := (forallMem alike.rhs).1 x (List.mem_of_getElem? spot)
  exact ⟨y, related⟩

theorem offered {s : Nat} {x : Symbol} {action : Action} (offer : g.Offers s x action) : ∃ y, R x y := by
  cases offer with
  | shift _ move => exact includes.moved move
  | goto _ move => exact includes.moved move
  | reduce known =>
    obtain ⟨y, _, related⟩ := includes.terminal known
    exact ⟨y, related⟩
  | accept last => exact ⟨_, last ▸ includes.names.endOfInput⟩

end Includes

structure Corresponds (R : Symbol → Symbol → Prop) (N S : Nat → Nat → Prop) (g h : Grammar) : Prop
    extends Includes R N g h where
  start : S 0 0
  placed : ∀ {s i}, Holds g.lr0States s i → ∃ t, S s t
  unique : ∀ {s t t'}, S s t → S s t' → t = t'
  holds : ∀ {s t id k dot}, S s t → N id k → Holds g.lr0States s ⟨id, dot⟩ → Holds h.lr0States t ⟨k, dot⟩
  moves : ∀ {s t s' x y}, S s t → R x y → Moves g.lr0States s x s' → ∃ t', Moves h.lr0States t y t' ∧ S s' t'

namespace Corresponds
variable {R : Symbol → Symbol → Prop} {N S : Nat → Nat → Prop} {g h : Grammar}
  (same : Corresponds R N S g h)
include same

theorem walk {u v : List Symbol} (words : List.Forall₂ R u v) :
    ∀ {s s' t : Nat}, S s s' → g.walk g.lr0States s u = .ok t →
      ∃ t', h.walk h.lr0States s' v = .ok t' ∧ S t t' := by
  induction words with
  | nil =>
    intro s s' t here walked
    cases walked
    exact ⟨s', rfl, here⟩
  | cons related _ ih =>
    intro s s' t here walked
    obtain ⟨mid, move, rest⟩ := walkCons.1 walked
    obtain ⟨mid', move', there⟩ := same.moves here related move
    obtain ⟨t', rest', final⟩ := ih there rest
    exact ⟨t', walkCons.2 ⟨mid', move', rest'⟩, final⟩

omit same in
def Tagwise (R : Symbol → Symbol → Prop) (S : Nat → Nat → Prop) (X Y : TaggedSymbol) : Prop :=
  S X.state Y.state ∧ R X.symbol Y.symbol

theorem tagRhs {u v : List Symbol} (words : List.Forall₂ R u v) :
    ∀ {s s' : Nat} {ys : List TaggedSymbol}, S s s' → g.tagRhs g.lr0States s u = .ok ys →
      ∃ zs, h.tagRhs h.lr0States s' v = .ok zs ∧ List.Forall₂ (Tagwise R S) ys zs := by
  induction words with
  | nil =>
    intro s s' ys _ tagged
    cases tagged
    exact ⟨[], rfl, .nil⟩
  | cons related _ ih =>
    intro s s' ys here tagged
    obtain ⟨mid, rest, move, later, rfl⟩ := tagCons.1 tagged
    obtain ⟨mid', move', there⟩ := same.moves here related move
    obtain ⟨rest', tagged', all⟩ := ih there later
    exact ⟨_, tagCons.2 ⟨mid', rest', move', tagged', rfl⟩, .cons ⟨here, related⟩ all⟩

theorem mirrors {t t' : TaggedGrammar} (tags : t.Tags g) (tags' : t'.Tags h) :
    Cfg.Mirrors (Tagwise R S) t.cfg t'.cfg := by
  refine ⟨?_, fun related => same.names.terminal related.2, ?_, ?_, ?_⟩
  · intro X Y Y' first second
    obtain ⟨s, x⟩ := Y
    obtain ⟨s', x'⟩ := Y'
    obtain rfl : s = s' := same.unique first.1 second.1
    obtain rfl := (same.names.unique first.2 second.2).1 rfl
    rfl
  · intro P inside
    obtain ⟨s, id, p, found, held, lhs, tagged⟩ := tags.productions.1 inside
    obtain ⟨s', here⟩ := same.placed held
    obtain ⟨id', q, number, found', alike⟩ := same.productions found
    obtain ⟨zs, tagged', rhs⟩ := same.tagRhs alike.rhs here tagged
    refine ⟨⟨⟨s', q.lhs⟩, zs⟩, ?_, lhs ▸ ⟨here, alike.lhs⟩, rhs⟩
    exact tags'.productions.2 ⟨s', id', q, found', same.holds here number held, rfl, tagged'⟩
  · intro X begun
    obtain rfl := Option.some.inj (tags.start.symm.trans begun)
    exact ⟨_, tags'.start, same.start, same.names.augmentedStart⟩
  · rw [tags.endMarker, tags'.endMarker]
    exact ⟨same.start, same.names.endOfInput⟩

theorem lookahead {found found' : Lookaheads} (answer : g.lookaheads g.lr0States = .ok found)
    (answer' : h.lookaheads h.lr0States = .ok found') {s t id id' : Nat} (here : S s t) (number : N id id')
    {x : Symbol} (member : x ∈ found.getD ⟨s, id⟩ ∅) : ∃ y ∈ found'.getD ⟨t, id'⟩ ∅, R x y := by
  obtain ⟨tagged, lookaheads, tags, own, exact⟩ := lookaheadsCollect same.wellFormed
  obtain ⟨tagged', lookaheads', tags', own', exact'⟩ := lookaheadsCollect same.wellFormed'
  obtain rfl := Except.ok.inj (answer.symm.trans own)
  obtain rfl := Except.ok.inj (answer'.symm.trans own')
  obtain ⟨origin, _, p, found, held, walked, follows⟩ := exact.1 member
  obtain ⟨origin', begun⟩ := same.placed held
  obtain ⟨q, found', alike⟩ := same.production number found
  obtain ⟨t', walked', there⟩ := same.walk alike.rhs begun walked
  obtain rfl := same.unique here there
  obtain ⟨⟨_, y⟩, ⟨_, related⟩, follows'⟩ :=
    (same.mirrors tags tags').follows follows (y := ⟨origin', q.lhs⟩) ⟨begun, alike.lhs⟩
  exact ⟨y, exact'.2 ⟨origin', _, q, found', same.holds begun number held, walked', follows'⟩, related⟩

theorem offers {s t : Nat} {x y : Symbol} {action : Action} (here : S s t) (related : R x y)
    (offer : g.Offers s x action) : ∃ action', action.Alike N S action' ∧ h.Offers t y action' := by
  cases offer with
  | shift terminal move =>
    obtain ⟨t', move', there⟩ := same.moves here related move
    exact ⟨_, .shift there, .shift (same.names.terminal related ▸ terminal) move'⟩
  | goto nonterminal move =>
    obtain ⟨t', move', there⟩ := same.moves here related move
    exact ⟨_, .goto there, .goto (same.names.terminal related ▸ nonterminal) move'⟩
  | reduce known ordinary other found complete =>
    obtain ⟨y', known', related'⟩ := same.terminal known
    obtain rfl := (same.names.unique related related').1 rfl
    obtain ⟨id', q, number, found', alike⟩ := same.productions found
    have ordinary' : y ≠ .error := fun error =>
      ordinary ((same.names.unique related same.names.error).2 error)
    refine ⟨_, .reduce number, .reduce known' ordinary' ?_ found' ?_⟩
    · rintro rfl
      exact other (same.otherProduction number found)
    · rw [← alike.rhs.length_eq]
      exact same.holds here number complete
  | accept last complete =>
    obtain ⟨id', _, number, _, _⟩ := same.productions same.wellFormed.startProduction
    obtain rfl := same.startProduction number
    refine ⟨_, .accept, .accept ?_ (same.holds here number complete)⟩
    exact (same.names.unique related same.names.endOfInput).1 last

end Corresponds
end Grammar
end ForkingLR
