import ForkingLR.Proofs.Cfg.Follow
import ForkingLR.Proofs.Lists
import ForkingLR.Proofs.Table.Expected
import ForkingLR.Table.Lookahead

/-! The state-tagged grammar computes the merged lookaheads. Tagging keeps what vanishes and what
begins, a tagged nonterminal stands for the items that begin in its state, and what follows it there
is what the canonical items carry. -/
namespace ForkingLR

namespace Grammar
open Table
variable {g : Grammar} {states : List State}

theorem tagCons {s : Nat} {x : Symbol} {u : List Symbol} {ys : List TaggedSymbol} :
    g.tagRhs states s (x :: u) = .ok ys ↔
      ∃ mid zs, Moves states s x mid ∧ g.tagRhs states mid u = .ok zs ∧ ys = ⟨s, x⟩ :: zs := by
  rw [tagRhs]
  cases taken : g.step states s x with
  | error fault =>
    refine ⟨nofun, ?_⟩
    rintro ⟨mid, _, move, _⟩
    rw [stepIff.2 move] at taken
    contradiction
  | ok mid =>
    constructor
    · intro h
      cases rest : g.tagRhs states mid u with
      | error fault =>
        simp only [bind, Except.bind, rest] at h
        contradiction
      | ok zs =>
        simp only [bind, Except.bind, rest] at h
        exact ⟨mid, zs, stepIff.1 taken, rest, (Except.ok.inj h).symm⟩
    · rintro ⟨mid', zs, move, rest, rfl⟩
      obtain rfl := movesUnique (stepIff.1 taken) move
      simp only [bind, Except.bind, rest]
      rfl

theorem tagSymbols {u : List Symbol} :
    ∀ {s : Nat} {ys : List TaggedSymbol}, g.tagRhs states s u = .ok ys →
      ys.map TaggedSymbol.symbol = u := by
  induction u with
  | nil =>
    intro s ys h
    cases h
    rfl
  | cons x u ih =>
    intro s ys h
    obtain ⟨mid, zs, _, rest, rfl⟩ := tagCons.1 h
    rw [List.map_cons, ih rest]

theorem tagSplit {y : TaggedSymbol} {after : List TaggedSymbol} :
    ∀ {before : List TaggedSymbol} {s : Nat} {u : List Symbol},
      g.tagRhs states s u = .ok (before ++ y :: after) →
      g.walk states s (before.map TaggedSymbol.symbol) = .ok y.state := by
  intro before
  induction before with
  | nil =>
    intro s u h
    cases u with
    | nil => cases h
    | cons x u =>
      obtain ⟨_, _, _, _, same⟩ := tagCons.1 h
      rw [List.nil_append, List.cons.injEq] at same
      rw [same.1]
      rfl
  | cons z before ih =>
    intro s u h
    cases u with
    | nil => cases h
    | cons x u =>
      obtain ⟨mid, zs, move, rest, same⟩ := tagCons.1 h
      rw [List.cons_append, List.cons.injEq] at same
      obtain ⟨rfl, rfl⟩ := same
      exact walkCons.2 ⟨mid, move, ih rest⟩

theorem tagAppend {v : List Symbol} :
    ∀ {u : List Symbol} {s mid : Nat} {ys : List TaggedSymbol}, g.walk states s u = .ok mid →
      g.tagRhs states s (u ++ v) = .ok ys →
      ∃ before after, ys = before ++ after ∧ g.tagRhs states mid v = .ok after := by
  intro u
  induction u with
  | nil =>
    intro s mid ys walked h
    cases walked
    exact ⟨[], ys, rfl, h⟩
  | cons x u ih =>
    intro s mid ys walked h
    obtain ⟨next, zs, move, rest, rfl⟩ := tagCons.1 h
    obtain ⟨next', move', walked⟩ := walkCons.1 walked
    obtain rfl := movesUnique move move'
    obtain ⟨before, after, rfl, tail⟩ := ih walked rest
    exact ⟨_ :: before, after, rfl, tail⟩

def Reads (g : Grammar) (s : Nat) (u : List Symbol) : Prop :=
  ∃ id p before after, g.productions[id]? = some p ∧ p.rhs = before ++ (u ++ after) ∧
    Holds g.lr0States s ⟨id, before.length⟩

theorem Reads.take {s : Nat} {u v : List Symbol} (h : g.Reads s (u ++ v)) : g.Reads s u := by
  obtain ⟨id, p, before, after, found, split, held⟩ := h
  exact ⟨id, p, before, v ++ after, found, by simp [split], held⟩

theorem memAwaitedIn {X : TaggedSymbol} :
    X ∈ g.awaitedIn states ↔ isTerminal X.symbol = false ∧
      ∃ i, Holds states X.state i ∧ i.next? g.productions = some X.symbol := by
  unfold awaitedIn Holds
  simp only [List.mem_eraseDups, List.mem_flatMap, Prod.exists, List.mem_zipIdx_iff_getElem?,
    List.mem_filterMap]
  constructor
  · rintro ⟨st, s, found, x, ⟨i, member, next⟩, kept⟩
    split at kept
    · contradiction
    · rename_i nonterminal
      cases kept
      exact ⟨by simpa using nonterminal, i, ⟨st, found, member⟩, next⟩
  · rintro ⟨nonterminal, i, ⟨st, found, member⟩, next⟩
    exact ⟨st, X.state, found, X.symbol, ⟨i, member, next⟩, by simp [nonterminal]⟩

section
variable (wf : g.WellFormed)
include wf

theorem Reads.step {s mid : Nat} {x : Symbol} {u : List Symbol} (h : g.Reads s (x :: u))
    (move : Moves g.lr0States s x mid) : g.Reads mid u := by
  obtain ⟨id, p, before, after, found, split, held⟩ := h
  have advanced := holdsAdvance wf move held (nextAfter found split)
  refine ⟨id, p, before ++ [x], after, found, by simp [split], ?_⟩
  simpa [Item.advance] using advanced

theorem Reads.begin {s id : Nat} {u : List Symbol} {p : Production Symbol}
    (h : g.Reads s (p.lhs :: u)) (found : g.productions[id]? = some p) :
    Holds g.lr0States s ⟨id, 0⟩ := by
  obtain ⟨_, _, _, _, found', split, held⟩ := h
  exact holdsClosed wf held (nextAfter found' split) found

omit wf in
theorem readsRhs {s id : Nat} {p : Production Symbol} (found : g.productions[id]? = some p)
    (held : Holds g.lr0States s ⟨id, 0⟩) : g.Reads s p.rhs :=
  ⟨id, p, [], [], found, by simp, held⟩

theorem Reads.tag {u : List Symbol} :
    ∀ {s : Nat}, g.Reads s u → ∃ ys, g.tagRhs g.lr0States s u = .ok ys := by
  induction u with
  | nil => exact fun _ => ⟨[], rfl⟩
  | cons x u ih =>
    intro s h
    obtain ⟨id, p, before, after, found, split, held⟩ := id h
    obtain ⟨mid, move⟩ := movesOfNext wf held (nextAfter found split)
    obtain ⟨zs, rest⟩ := ih (h.step wf move)
    exact ⟨_, tagCons.2 ⟨mid, zs, move, rest, rfl⟩⟩

theorem Reads.walk {u : List Symbol} :
    ∀ {s : Nat}, g.Reads s u → ∃ t, g.walk g.lr0States s u = .ok t := by
  induction u with
  | nil => exact fun {s} _ => ⟨s, rfl⟩
  | cons x u ih =>
    intro s h
    obtain ⟨id, p, before, after, found, split, held⟩ := id h
    obtain ⟨mid, move⟩ := movesOfNext wf held (nextAfter found split)
    obtain ⟨t, rest⟩ := ih (h.step wf move)
    exact ⟨t, walkCons.2 ⟨mid, move, rest⟩⟩

theorem awaitedBegins {X : TaggedSymbol} :
    X ∈ (g.awaitedIn g.lr0States).filter (· ≠ TaggedGrammar.start) ↔
      ∃ id p, id ≠ g.startProduction ∧ g.productions[id]? = some p ∧ p.lhs = X.symbol ∧
        Holds g.lr0States X.state ⟨id, 0⟩ := by
  rw [List.mem_filter, memAwaitedIn]
  constructor
  · rintro ⟨⟨nonterminal, i, held, next⟩, _⟩
    obtain ⟨defined, other⟩ := wf.nextDefined next nonterminal
    obtain ⟨p, member, lhs⟩ := List.mem_map.1 defined
    obtain ⟨id, found⟩ := List.mem_iff_getElem?.1 member
    refine ⟨id, p, ?_, found, lhs, holdsClosed wf held (lhs ▸ next) found⟩
    rintro rfl
    obtain rfl := Option.some.inj (wf.startProduction.symm.trans found)
    exact other lhs.symm
  · rintro ⟨id, p, other, found, lhs, held⟩
    have nonterminal := wf.lhsNonterminal p (List.mem_of_getElem? found)
    rcases holdsOrigin wf held found with ⟨_, same⟩ | ⟨i, there, next⟩
    · exact absurd same other
    · refine ⟨⟨lhs ▸ nonterminal, i, there, lhs ▸ next⟩, ?_⟩
      have proper : X ≠ TaggedGrammar.start := by
        rintro rfl
        exact other (wf.startOnly found lhs)
      simpa using proper

omit wf in
theorem tagProductionsIff {X : TaggedSymbol} {ps : List (Production TaggedSymbol)}
    (h : g.tagProductions states X = .ok ps) {P : Production TaggedSymbol} :
    P ∈ ps ↔ ∃ (id : Nat) (p : Production Symbol), g.productions[id]? = some p ∧ p.lhs = X.symbol ∧
      P.lhs = X ∧ g.tagRhs states X.state p.rhs = .ok P.rhs := by
  obtain ⟨forward, backward⟩ := forallMem (mapMIff.1 h)
  constructor
  · intro inside
    obtain ⟨⟨p, id⟩, listed, made⟩ := backward P inside
    obtain ⟨found, lhs⟩ := memProductionsFor.1 listed
    obtain ⟨rhs, tagged, rfl⟩ := bindPureIff.1 made
    exact ⟨id, p, found, lhs, rfl, tagged⟩
  · rintro ⟨id, p, found, lhs, rfl, tagged⟩
    obtain ⟨P', inside, made⟩ := forward (p, id) (memProductionsFor.2 ⟨found, lhs⟩)
    obtain ⟨rhs, tagged', rfl⟩ := bindPureIff.1 made
    obtain rfl := Except.ok.inj (tagged'.symm.trans tagged)
    exact inside

theorem begunTogether {s id id' : Nat} {p p' : Production Symbol} (held : Holds g.lr0States s ⟨id, 0⟩)
    (found : g.productions[id]? = some p) (found' : g.productions[id']? = some p')
    (same : p'.lhs = p.lhs) : Holds g.lr0States s ⟨id', 0⟩ := by
  rcases holdsOrigin wf held found with ⟨_, rfl⟩ | ⟨i, there, next⟩
  · obtain rfl := Option.some.inj (wf.startProduction.symm.trans found)
    rwa [wf.startOnly found' same]
  · exact holdsClosed wf there (same ▸ next) found'

theorem tagProductionsOk {X : TaggedSymbol} {id : Nat} {p : Production Symbol}
    (found : g.productions[id]? = some p) (lhs : p.lhs = X.symbol)
    (held : Holds g.lr0States X.state ⟨id, 0⟩) : ∃ ps, g.tagProductions g.lr0States X = .ok ps := by
  refine mapMExists ?_
  rintro ⟨p', id'⟩ listed
  obtain ⟨found', lhs'⟩ := memProductionsFor.1 listed
  have begun := begunTogether wf held found found' (lhs'.trans lhs.symm)
  obtain ⟨ys, tagged⟩ := (readsRhs found' begun).tag wf
  exact ⟨_, bindPureIff.2 ⟨ys, tagged, rfl⟩⟩

theorem startTagged : g.tagRhs g.lr0States 0 [g.start] = .ok [⟨0, g.start⟩] := by
  obtain ⟨mid, move⟩ := movesOfNext wf (holdsStart wf) (Item.nextIff.2 ⟨_, wf.startProduction, rfl⟩)
  exact tagCons.2 ⟨mid, [], move, rfl, rfl⟩

theorem tagAwaitedOk : ∃ rows,
    ((g.awaitedIn g.lr0States).filter (· ≠ TaggedGrammar.start)).mapM (g.tagProductions g.lr0States) =
      .ok rows := by
  refine mapMExists ?_
  intro X inside
  obtain ⟨id, p, _, found, lhs, held⟩ := (awaitedBegins wf).1 inside
  exact tagProductionsOk wf found lhs held

theorem begunIff {X : TaggedSymbol} :
    X ∈ TaggedGrammar.start :: (g.awaitedIn g.lr0States).filter (· ≠ TaggedGrammar.start) ↔
      ∃ (id : Nat) (p : Production Symbol), g.productions[id]? = some p ∧ p.lhs = X.symbol ∧
        Holds g.lr0States X.state ⟨id, 0⟩ := by
  rw [List.mem_cons, awaitedBegins wf]
  constructor
  · rintro (rfl | ⟨id, p, _, begun⟩)
    · exact ⟨_, _, wf.startProduction, rfl, holdsStart wf⟩
    · exact ⟨id, p, begun⟩
  · rintro ⟨id, p, found, lhs, held⟩
    by_cases same : id = g.startProduction
    · left
      subst same
      obtain rfl := Option.some.inj (wf.startProduction.symm.trans found)
      have zero := startStateOnly wf held
      cases X
      cases zero
      cases lhs
      rfl
    · exact .inr ⟨id, p, same, found, lhs, held⟩

theorem taggedIff {rows : List (List (Production TaggedSymbol))}
    (tagged : ((g.awaitedIn g.lr0States).filter (· ≠ TaggedGrammar.start)).mapM
      (g.tagProductions g.lr0States) = .ok rows) {P : Production TaggedSymbol} :
    P ∈ ⟨TaggedGrammar.start, [⟨0, g.start⟩]⟩ :: rows.flatten ↔
      ∃ (s id : Nat) (p : Production Symbol), g.productions[id]? = some p ∧
        Holds g.lr0States s ⟨id, 0⟩ ∧ P.lhs = ⟨s, p.lhs⟩ ∧
        g.tagRhs g.lr0States s p.rhs = .ok P.rhs := by
  obtain ⟨forward, backward⟩ := forallMem (mapMIff.1 tagged)
  rw [List.mem_cons, List.mem_flatten]
  constructor
  · rintro (rfl | ⟨row, listed, inside⟩)
    · exact ⟨0, _, _, wf.startProduction, holdsStart wf, rfl, startTagged wf⟩
    · obtain ⟨X, there, made⟩ := backward row listed
      obtain ⟨id, p, found, lhs, rfl, rhs⟩ := (tagProductionsIff made).1 inside
      obtain ⟨id', p', _, found', lhs', held⟩ := (awaitedBegins wf).1 there
      refine ⟨P.lhs.state, id, p, found, ?_, by rw [lhs], rhs⟩
      exact begunTogether wf held found' found (lhs.trans lhs'.symm)
  · rintro ⟨s, id, p, found, held, lhs, rhs⟩
    by_cases same : id = g.startProduction
    · left
      subst same
      obtain rfl := startStateOnly wf held
      obtain rfl := Option.some.inj (wf.startProduction.symm.trans found)
      have only : [⟨0, g.start⟩] = P.rhs := Except.ok.inj ((startTagged wf).symm.trans rhs)
      cases P
      cases lhs
      cases only
      rfl
    · right
      obtain ⟨row, listed, made⟩ := forward P.lhs
        ((awaitedBegins wf).2 ⟨id, p, same, found, by rw [lhs], by rw [lhs]; exact held⟩)
      exact ⟨row, listed, (tagProductionsIff made).2
        ⟨id, p, found, by rw [lhs], rfl, by rw [lhs]; exact rhs⟩⟩

end
end Grammar

namespace TaggedGrammar
open Table

structure Tags (g : Grammar) (t : TaggedGrammar) : Prop where
  productions : ∀ {P : Production TaggedSymbol}, P ∈ t.cfg.productions ↔
    ∃ (s id : Nat) (p : Production Symbol), g.productions[id]? = some p ∧
      Holds g.lr0States s ⟨id, 0⟩ ∧ P.lhs = ⟨s, p.lhs⟩ ∧
      g.tagRhs g.lr0States s p.rhs = .ok P.rhs
  nonterminals : ∀ {X : TaggedSymbol}, X ∈ t.nonterminals ↔
    ∃ (id : Nat) (p : Production Symbol), g.productions[id]? = some p ∧ p.lhs = X.symbol ∧
      Holds g.lr0States X.state ⟨id, 0⟩
  start : t.cfg.start = some TaggedGrammar.start
  endMarker : t.cfg.endMarker = ⟨0, .endOfInput⟩

variable {g : Grammar}

theorem deriveTags (wf : g.WellFormed) :
    ∃ t, TaggedGrammar.derive g g.lr0States = .ok t ∧ t.Tags g := by
  obtain ⟨rows, tagged⟩ := Grammar.tagAwaitedOk wf
  refine ⟨_, by rw [derive, tagged]; rfl, ?_⟩
  exact ⟨Grammar.taggedIff wf tagged, Grammar.begunIff wf, rfl, rfl⟩

variable {t : TaggedGrammar} (tags : t.Tags g)
include tags

theorem Tags.nonterminalLhs (wf : g.WellFormed) :
    ∀ P ∈ t.cfg.productions, isTerminal P.lhs = false := by
  intro P inside
  obtain ⟨s, id, p, found, _, lhs, _⟩ := tags.productions.1 inside
  rw [lhs]
  exact wf.lhsNonterminal p (List.mem_of_getElem? found)

theorem Tags.untagVanishes {ys : List TaggedSymbol} (h : t.cfg.Vanishes ys) :
    g.cfg.Vanishes (ys.map TaggedSymbol.symbol) := by
  induction h with
  | nil => exact .nil
  | @cons P rest inside _ _ one two =>
    obtain ⟨s, id, p, found, _, lhs, rhs⟩ := tags.productions.1 inside
    rw [Grammar.tagSymbols rhs] at one
    rw [List.map_cons, lhs]
    exact .cons (List.mem_of_getElem? found) one two

theorem Tags.untagBegins {b : TaggedSymbol} {ys : List TaggedSymbol} (h : t.cfg.Begins b ys) :
    g.cfg.Begins b.symbol (ys.map TaggedSymbol.symbol) := by
  induction h with
  | here terminal => exact .here terminal
  | @inside P rest inside _ ih =>
    obtain ⟨s, id, p, found, _, lhs, rhs⟩ := tags.productions.1 inside
    rw [Grammar.tagSymbols rhs] at ih
    rw [List.map_cons, lhs]
    exact .inside (List.mem_of_getElem? found) ih
  | later gone _ ih => exact .later (tags.untagVanishes gone) ih

theorem Tags.tagVanishes (wf : g.WellFormed) {u : List Symbol} (h : g.cfg.Vanishes u) :
    ∀ {s : Nat} {ys : List TaggedSymbol}, g.Reads s u → g.tagRhs g.lr0States s u = .ok ys →
      t.cfg.Vanishes ys := by
  induction h with
  | nil =>
    intro s ys _ tagged
    cases tagged
    exact .nil
  | @cons p rest member _ _ one two =>
    intro s ys reads tagged
    obtain ⟨mid, zs, move, tail, rfl⟩ := Grammar.tagCons.1 tagged
    obtain ⟨id, found⟩ := List.mem_iff_getElem?.1 member
    have held := reads.begin wf found
    obtain ⟨inner, tagged⟩ := (Grammar.readsRhs found held).tag wf
    have production : (⟨⟨s, p.lhs⟩, inner⟩ : Production TaggedSymbol) ∈ t.cfg.productions :=
      tags.productions.2 ⟨s, id, p, found, held, rfl, tagged⟩
    exact .cons production (one (Grammar.readsRhs found held) tagged) (two (reads.step wf move) tail)

theorem Tags.tagBegins (wf : g.WellFormed) {a : Symbol} {u : List Symbol} (h : g.cfg.Begins a u) :
    ∀ {s : Nat} {ys : List TaggedSymbol}, g.Reads s u → g.tagRhs g.lr0States s u = .ok ys →
      ∃ q, t.cfg.Begins ⟨q, a⟩ ys := by
  induction h with
  | here terminal =>
    intro s ys _ tagged
    obtain ⟨_, _, _, _, rfl⟩ := Grammar.tagCons.1 tagged
    exact ⟨s, .here terminal⟩
  | @inside p rest member _ ih =>
    intro s ys reads tagged
    obtain ⟨mid, zs, move, tail, rfl⟩ := Grammar.tagCons.1 tagged
    obtain ⟨id, found⟩ := List.mem_iff_getElem?.1 member
    have held := reads.begin wf found
    obtain ⟨inner, tagged⟩ := (Grammar.readsRhs found held).tag wf
    have production : (⟨⟨s, p.lhs⟩, inner⟩ : Production TaggedSymbol) ∈ t.cfg.productions :=
      tags.productions.2 ⟨s, id, p, found, held, rfl, tagged⟩
    obtain ⟨q, begins⟩ := ih (Grammar.readsRhs found held) tagged
    exact ⟨q, .inside production begins⟩
  | @later x rest gone _ ih =>
    intro s ys reads tagged
    obtain ⟨mid, zs, move, tail, rfl⟩ := Grammar.tagCons.1 tagged
    have alone : g.tagRhs g.lr0States s [x] = .ok [⟨s, x⟩] :=
      Grammar.tagCons.2 ⟨mid, [], move, rfl, rfl⟩
    have first : g.Reads s [x] := Grammar.Reads.take (v := rest) reads
    obtain ⟨q, begins⟩ := ih (reads.step wf move) tail
    exact ⟨q, .later (tags.tagVanishes wf gone first alone) begins⟩

theorem Tags.tagNext (wf : g.WellFormed) {outer dot s mid : Nat} {q : Production Symbol} {x : Symbol}
    {origin : List Symbol} (around : g.productions[outer]? = some q) (next : q.rhs[dot]? = some x)
    (walked : g.walk g.lr0States 0 origin = .ok s) (held : Holds g.lr0States s ⟨outer, 0⟩)
    (walked' : g.walk g.lr0States 0 (origin ++ q.rhs.take dot) = .ok mid)
    (inside : Holds g.lr0States mid ⟨outer, dot⟩) :
    ∃ (before after : List TaggedSymbol) (state : Nat),
      (⟨⟨s, q.lhs⟩, before ++ ⟨mid, x⟩ :: after⟩ : Production TaggedSymbol) ∈ t.cfg.productions ∧
      g.Reads state (q.rhs.drop (dot + 1)) ∧
      g.tagRhs g.lr0States state (q.rhs.drop (dot + 1)) = .ok after := by
  obtain ⟨start, back, inner⟩ := Grammar.walkAppend.1 walked'
  obtain rfl := Except.ok.inj (walked.symm.trans back)
  have split : q.rhs = q.rhs.take dot ++ x :: q.rhs.drop (dot + 1) := by
    rw [← Grammar.dropNext next, List.take_append_drop]
  obtain ⟨ys, tagged⟩ := (Grammar.readsRhs around held).tag wf
  have production : (⟨⟨s, q.lhs⟩, ys⟩ : Production TaggedSymbol) ∈ t.cfg.productions :=
    tags.productions.2 ⟨s, outer, q, around, held, rfl, tagged⟩
  rw [split] at tagged
  obtain ⟨front, back, rfl, rest⟩ := Grammar.tagAppend inner tagged
  obtain ⟨state, zs, move, tail, rfl⟩ := Grammar.tagCons.1 rest
  have reads : g.Reads mid (x :: q.rhs.drop (dot + 1)) := by
    refine ⟨outer, q, q.rhs.take dot, [], around, by rw [List.append_nil]; exact split, ?_⟩
    rwa [List.length_take_of_le (List.getElem?_eq_some_iff.1 next).1.le]
  exact ⟨front, zs, state, production, reads.step wf move, tail⟩

theorem Tags.expectsFollows (wf : g.WellFormed) {word : List Symbol} {i : Item} {a : Symbol}
    (h : g.Expects word i a) :
    ∃ (p : Production Symbol) (origin : List Symbol) (s q : Nat),
      g.productions[i.production]? = some p ∧ word = origin ++ p.rhs.take i.dot ∧
      g.walk g.lr0States 0 origin = .ok s ∧ Holds g.lr0States s ⟨i.production, 0⟩ ∧
      t.cfg.Follows ⟨s, p.lhs⟩ ⟨q, a⟩ := by
  induction h with
  | start =>
    refine ⟨_, [], 0, 0, wf.startProduction, rfl, rfl, Grammar.holdsStart wf, ?_⟩
    exact tags.endMarker ▸ .start tags.start
  | @shift word i x a before next ih =>
    obtain ⟨p, origin, s, q, found, rfl, walked, held, follows⟩ := ih
    obtain ⟨p', found', here⟩ := Item.nextIff.1 next
    obtain rfl := Option.some.inj (found.symm.trans found')
    refine ⟨p, origin, s, q, found, ?_, walked, held, follows⟩
    rw [Item.advance, List.take_add_one, here, Option.toList_some, List.append_assoc]
  | @inside word outer dot id q p a leads around next found first =>
    -- A prediction looks past the predicted symbol in the production that it was made in, and that one is
    -- tagged from the state where it began.
    obtain ⟨origin, rfl, s, walked, held⟩ := leads.origin wf around
    obtain ⟨mid, walked', inside⟩ := leads
    obtain ⟨before, after, _, production, reads, tagged⟩ :=
      tags.tagNext wf around next walked held walked' inside
    obtain ⟨state, begins⟩ := tags.tagBegins wf first reads tagged
    have begun := Grammar.holdsClosed wf inside (Item.nextIff.2 ⟨q, around, next⟩) found
    exact ⟨p, _, mid, state, found, by simp, walked', begun, .inside production rfl begins⟩
  | @tail word outer dot id q p a before around next found gone ih =>
    obtain ⟨q', origin, s, state, around', rfl, walked, held, follows⟩ := ih
    obtain rfl := Option.some.inj (around.symm.trans around')
    obtain ⟨mid, walked', inside⟩ := before.leads wf
    obtain ⟨before, after, _, production, reads, tagged⟩ :=
      tags.tagNext wf around next walked held walked' inside
    have vanishes := tags.tagVanishes wf gone reads tagged
    have begun := Grammar.holdsClosed wf inside (Item.nextIff.2 ⟨q, around, next⟩) found
    exact ⟨p, _, mid, state, found, by simp, walked', begun, .tail production rfl vanishes follows⟩

def Awaits (g : Grammar) (X b : TaggedSymbol) : Prop :=
  ∃ (word : List Symbol) (outer dot : Nat) (q : Production Symbol) (a : Symbol),
    g.walk g.lr0States 0 word = .ok X.state ∧ g.Valid word ⟨outer, dot⟩ a ∧
    g.productions[outer]? = some q ∧ q.rhs[dot]? = some X.symbol ∧
    g.cfg.FirstOf (q.rhs.drop (dot + 1) ++ [a]) b.symbol

omit tags in
theorem Awaits.after {X : TaggedSymbol} {s id : Nat} {p : Production Symbol} {origin : List Symbol}
    {a : Symbol} {b : TaggedSymbol} {ys before after : List TaggedSymbol}
    (found : g.productions[id]? = some p) (walked : g.walk g.lr0States 0 origin = .ok s)
    (valid : g.Valid origin ⟨id, 0⟩ a) (tagged : g.tagRhs g.lr0States s p.rhs = .ok ys)
    (placed : ys = before ++ X :: after)
    (first : g.cfg.Begins b.symbol (after.map TaggedSymbol.symbol ++ [a])) : Awaits g X b := by
  subst placed
  have symbols := Grammar.tagSymbols tagged
  rw [List.map_append, List.map_cons] at symbols
  have inner := Grammar.tagSplit tagged
  have moved := valid.run found symbols.symm
  have rest : p.rhs.drop ((before.map TaggedSymbol.symbol).length + 1) =
      after.map TaggedSymbol.symbol := by simp [← symbols, List.drop_append]
  refine ⟨_, id, _, p, a, Grammar.walkAppend.2 ⟨s, walked, inner⟩, moved, found, ?_, ?_⟩
  · simp [← symbols]
  · rw [rest]
    exact Cfg.beginsIff.1 first

theorem Tags.followsAwaited (wf : g.WellFormed) (productive : g.Productive) {X b : TaggedSymbol}
    (h : t.cfg.Follows X b) : X = TaggedGrammar.start ∧ b.symbol = .endOfInput ∨ Awaits g X b := by
  induction h with
  | @start X started =>
    obtain rfl := Option.some.inj (tags.start.symm.trans started)
    exact .inl ⟨rfl, by rw [tags.endMarker]⟩
  | @inside P before after X b inside placed next =>
    obtain ⟨s, id, p, found, held, _, tagged⟩ := tags.productions.1 inside
    obtain ⟨items, there, _⟩ := Grammar.holdsIff.1 held
    obtain ⟨origin, walked⟩ := Grammar.stateReached wf there
    obtain ⟨a, valid⟩ := productive.inhabited wf walked held
    exact .inr (.after found walked valid tagged placed
      (Cfg.beginsAppend.2 (.inl (tags.untagBegins next))))
  | @tail P before after X b inside placed gone _ ih =>
    obtain ⟨s, id, p, found, held, lhs, tagged⟩ := tags.productions.1 inside
    obtain ⟨origin, walked, valid⟩ : ∃ origin, g.walk g.lr0States 0 origin = .ok s ∧
        g.Valid origin ⟨id, 0⟩ b.symbol := by
      rcases ih with ⟨start, last⟩ | ⟨origin, outer, dot, q, a, walked, valid, around, next, first⟩
      · rw [lhs] at start
        obtain ⟨rfl, sort⟩ := TaggedSymbol.mk.inj start
        obtain rfl := wf.startOnly found sort
        exact ⟨[], rfl, last ▸ .start⟩
      · rw [lhs] at walked next
        exact ⟨origin, walked, valid.predict around next found first⟩
    exact .inr (.after found walked valid tagged placed
      (Cfg.beginsAppend.2 (.inr ⟨tags.untagVanishes gone, .here valid.terminal⟩)))

end TaggedGrammar

theorem memLookaheadsFold {l : List (Reduction × SortedSet Symbol)} {m : Lookaheads} {r : Reduction}
    {a : Symbol} :
    a ∈ (l.foldl Lookaheads.extend m).getD r ∅ ↔ a ∈ m.getD r ∅ ∨ ∃ e ∈ l, e.1 = r ∧ a ∈ e.2 := by
  induction l generalizing m with
  | nil => simp
  | cons e l ih =>
    rw [List.foldl_cons, ih, Lookaheads.extend, SortedMap.getDOfGet, SortedMap.getInsert]
    by_cases same : r = e.1
    · subst same
      simp [or_assoc]
    · simp [same, Ne.symm same, SortedMap.getDOfGet]

namespace Grammar
open Table
variable {g : Grammar}

theorem memUntaggedFollow {follows : Cfg.Analysis TaggedSymbol} {x : TaggedSymbol} {a : Symbol} :
    a ∈ TaggedGrammar.untaggedFollow follows x ↔ ∃ q, ⟨q, a⟩ ∈ follows.follow x := by
  simp only [TaggedGrammar.untaggedFollow, SortedSet.memOfList, List.mem_map]
  constructor
  · rintro ⟨⟨q, _⟩, inside, rfl⟩
    exact ⟨q, inside⟩
  · rintro ⟨q, inside⟩
    exact ⟨_, inside, rfl⟩

theorem lookaheadsCollect (wf : g.WellFormed) :
    ∃ (t : TaggedGrammar) (lookaheads : Lookaheads), t.Tags g ∧
      g.lookaheads g.lr0States = .ok lookaheads ∧
      ∀ {s id : Nat} {a : Symbol}, a ∈ lookaheads.getD ⟨s, id⟩ ∅ ↔
        ∃ (origin q : Nat) (p : Production Symbol), g.productions[id]? = some p ∧
          Holds g.lr0States origin ⟨id, 0⟩ ∧ g.walk g.lr0States origin p.rhs = .ok s ∧
          t.cfg.Follows ⟨origin, p.lhs⟩ ⟨q, a⟩ := by
  obtain ⟨t, derived, tags⟩ := TaggedGrammar.deriveTags wf
  obtain ⟨rows, collected⟩ := mapMExists (f := g.contribution g.lr0States t.cfg.analysis)
    (l := t.nonterminals) (by
      intro X inside
      obtain ⟨id, p, found, lhs, held⟩ := tags.nonterminals.1 inside
      refine mapMExists ?_
      rintro ⟨p', id'⟩ listed
      obtain ⟨found', lhs'⟩ := memProductionsFor.1 listed
      have begun := begunTogether wf held found found' (lhs'.trans lhs.symm)
      obtain ⟨s, walked⟩ := (readsRhs found' begun).walk wf
      exact ⟨_, bindPureIff.2 ⟨s, walked, rfl⟩⟩)
  obtain ⟨forward, backward⟩ := forallMem (mapMIff.1 collected)
  have answer : g.lookaheads g.lr0States = .ok (rows.flatten.foldl Lookaheads.extend ∅) := by
    simp only [lookaheads, bind, Except.bind, derived, collected, pure, Except.pure]
  refine ⟨t, _, tags, answer, ?_⟩
  intro s id a
  rw [memLookaheadsFold]
  simp only [SortedMap.getDOfGet, SortedMap.getEmpty, Option.getD_none, SortedSet.notMemEmpty, false_or,
    List.mem_flatten]
  constructor
  · rintro ⟨e, ⟨row, listed, inside⟩, same, member⟩
    obtain ⟨X, there, made⟩ := backward row listed
    obtain ⟨⟨p, id'⟩, each, made⟩ := (forallMem (mapMIff.1 made)).2 e inside
    obtain ⟨s', walked, rfl⟩ := bindPureIff.1 made
    obtain ⟨rfl, rfl⟩ := Reduction.mk.inj same
    obtain ⟨found, lhs⟩ := memProductionsFor.1 each
    obtain ⟨id, p', found', lhs', held⟩ := tags.nonterminals.1 there
    obtain ⟨q, follows⟩ := memUntaggedFollow.1 member
    refine ⟨X.state, q, p, found, begunTogether wf held found' found (lhs.trans lhs'.symm), walked, ?_⟩
    rw [lhs]
    exact (Cfg.followTableExact (tags.nonterminalLhs wf)).1 follows
  · rintro ⟨origin, q, p, found, held, walked, follows⟩
    obtain ⟨row, listed, made⟩ := forward ⟨origin, p.lhs⟩ (tags.nonterminals.2 ⟨id, p, found, rfl, held⟩)
    obtain ⟨e, inside, made⟩ := (forallMem (mapMIff.1 made)).1 (p, id) (memProductionsFor.2 ⟨found, rfl⟩)
    obtain ⟨s', walked', rfl⟩ := bindPureIff.1 made
    obtain rfl := Except.ok.inj (walked.symm.trans walked')
    exact ⟨_, ⟨row, listed, inside⟩, rfl,
      memUntaggedFollow.2 ⟨q, (Cfg.followTableExact (tags.nonterminalLhs wf)).2 follows⟩⟩

theorem expectsLookahead (wf : g.WellFormed) {lookaheads : Lookaheads}
    (h : g.lookaheads g.lr0States = .ok lookaheads) {word : List Symbol} {s id : Nat} {a : Symbol}
    {p : Production Symbol} (found : g.productions[id]? = some p)
    (walked : g.walk g.lr0States 0 word = .ok s) (expects : g.Expects word ⟨id, p.rhs.length⟩ a) :
    a ∈ lookaheads.getD ⟨s, id⟩ ∅ := by
  obtain ⟨t, lookaheads', tags, answer, members⟩ := lookaheadsCollect wf
  obtain rfl := Except.ok.inj (h.symm.trans answer)
  obtain ⟨p', origin, start, q, found', rfl, front, held, follows⟩ := tags.expectsFollows wf expects
  obtain rfl := Option.some.inj (found.symm.trans found')
  obtain ⟨mid, front', back⟩ := walkAppend.1 walked
  obtain rfl := Except.ok.inj (front.symm.trans front')
  rw [List.take_length] at back
  exact members.2 ⟨_, q, p, found, held, back, follows⟩

theorem validLookahead (wf : g.WellFormed) {lookaheads : Lookaheads}
    (h : g.lookaheads g.lr0States = .ok lookaheads) {word : List Symbol} {s id : Nat} {a : Symbol}
    {p : Production Symbol} (found : g.productions[id]? = some p)
    (walked : g.walk g.lr0States 0 word = .ok s) (valid : g.Valid word ⟨id, p.rhs.length⟩ a) :
    a ∈ lookaheads.getD ⟨s, id⟩ ∅ := expectsLookahead wf h found walked (valid.expects wf)

theorem lookaheadValid (wf : g.WellFormed) (productive : g.Productive) {lookaheads : Lookaheads}
    (h : g.lookaheads g.lr0States = .ok lookaheads) {s id : Nat} {a : Symbol} {p : Production Symbol}
    (found : g.productions[id]? = some p) (member : a ∈ lookaheads.getD ⟨s, id⟩ ∅) :
    ∃ word, g.walk g.lr0States 0 word = .ok s ∧ g.Valid word ⟨id, p.rhs.length⟩ a := by
  obtain ⟨t, lookaheads', tags, answer, members⟩ := lookaheadsCollect wf
  obtain rfl := Except.ok.inj (h.symm.trans answer)
  obtain ⟨origin, q, p', found', held, walked, follows⟩ := members.1 member
  obtain rfl := Option.some.inj (found.symm.trans found')
  obtain ⟨word, front, valid⟩ : ∃ word, g.walk g.lr0States 0 word = .ok origin ∧
      g.Valid word ⟨id, 0⟩ a := by
    rcases tags.followsAwaited wf productive follows with
      ⟨start, last⟩ | ⟨word, outer, dot, r, b, front, valid, around, next, first⟩
    · obtain ⟨rfl, sort⟩ := TaggedSymbol.mk.inj start
      obtain rfl := wf.startOnly found sort
      obtain rfl : a = .endOfInput := last
      exact ⟨[], rfl, .start⟩
    · exact ⟨word, front, valid.predict around next found first⟩
  refine ⟨word ++ p.rhs, walkAppend.2 ⟨origin, front, walked⟩, ?_⟩
  exact valid.run found (List.append_nil p.rhs).symm

theorem lookaheadsMerged (built : g.Built) :
    ∃ lookaheads, g.lookaheads g.lr0States = .ok lookaheads ∧
      ∀ s id p, g.productions[id]? = some p →
        (∀ word a, g.walk g.lr0States 0 word = .ok s → g.Valid word ⟨id, p.rhs.length⟩ a →
          a ∈ lookaheads.getD ⟨s, id⟩ ∅) ∧
        (g.Productive → ∀ a, a ∈ lookaheads.getD ⟨s, id⟩ ∅ ↔
          ∃ word, g.walk g.lr0States 0 word = .ok s ∧ g.Valid word ⟨id, p.rhs.length⟩ a) := by
  have wf := built.wellFormed
  obtain ⟨_, lookaheads, _, answer, _⟩ := lookaheadsCollect wf
  refine ⟨lookaheads, answer, ?_⟩
  intro s id p found
  refine ⟨fun word a walked valid => validLookahead wf answer found walked valid, ?_⟩
  intro productive a
  constructor
  · exact lookaheadValid wf productive answer found
  · rintro ⟨word, walked, valid⟩
    exact validLookahead wf answer found walked valid

theorem numbersProductive (number : ⟨⟨3, .nonterminal⟩, [⟨5, .terminal⟩]⟩ ∈ g.productions)
    (whole : ⟨.augmentedStart, [⟨3, .nonterminal⟩]⟩ ∈ g.productions)
    (sorts : ∀ p ∈ g.productions, p.lhs = ⟨3, .nonterminal⟩ ∨ p.lhs = .augmentedStart) :
    g.Productive := by
  have single : g.cfg.Rewrites [⟨3, .nonterminal⟩] [⟨5, .terminal⟩] := by
    simpa using Cfg.Rewrites.first (g := g.cfg) number []
  have start : g.cfg.Rewrites [.augmentedStart] [⟨3, .nonterminal⟩] := by
    simpa using Cfg.Rewrites.first (g := g.cfg) whole []
  intro p inside
  refine ⟨[⟨5, .terminal⟩], by decide, ?_⟩
  rcases sorts p inside with lhs | lhs
  · rw [lhs]
    exact single
  · rw [lhs]
    exact start.trans single

theorem sumsProductive (finished : (Draft.ofCalls Draft.sumCalls).build = .ok g) : g.Productive := by
  have listed : (Draft.ofCalls Draft.sumCalls).build.toOption.map Grammar.productions = some
      [⟨⟨3, .nonterminal⟩, [⟨3, .nonterminal⟩, ⟨4, .terminal⟩, ⟨3, .nonterminal⟩]⟩,
        ⟨⟨3, .nonterminal⟩, [⟨5, .terminal⟩]⟩, ⟨⟨3, .nonterminal⟩, [.error]⟩,
        ⟨.augmentedStart, [⟨3, .nonterminal⟩]⟩] := by decide +kernel
  simp only [finished, Except.toOption, Option.map_some, Option.some.injEq] at listed
  exact numbersProductive (by simp [listed]) (by simp [listed]) (by rw [listed]; decide)

theorem sumsLookaheads :
    ∃ g lookaheads s, (Draft.ofCalls Draft.sumCalls).build = .ok g ∧ g.Productive ∧
      g.lookaheads g.lr0States = .ok lookaheads ∧ g.walk g.lr0States 0 [g.start] = .ok s ∧
      .endOfInput ∈ lookaheads.getD ⟨s, g.startProduction⟩ ∅ ∧
      ∀ a, a ∈ lookaheads.getD ⟨s, g.startProduction⟩ ∅ ↔
        ∃ word, g.walk g.lr0States 0 word = .ok s ∧ g.Valid word ⟨g.startProduction, 1⟩ a := by
  obtain ⟨g, finished⟩ := Draft.sumsBuilt
  have built : g.Built := ⟨_, finished⟩
  have productive := sumsProductive finished
  have accepts : g.Valid [g.start] ⟨g.startProduction, 1⟩ .endOfInput :=
    Valid.start.shift (Item.nextIff.2 ⟨_, built.wellFormed.startProduction, rfl⟩)
  obtain ⟨s, walked, _⟩ := accepts.holds built.wellFormed
  obtain ⟨lookaheads, answer, merged⟩ := lookaheadsMerged built
  obtain ⟨includes, exactly⟩ := merged s _ _ built.wellFormed.startProduction
  exact ⟨g, lookaheads, s, finished, productive, answer, walked, includes _ _ walked accepts,
    exactly productive⟩

end Grammar
end ForkingLR
