import ForkingLR.Proofs.Automaton.Totality
import ForkingLR.Proofs.Grammar.Operators

/-! The table of an operator grammar. A state completes one production at most, and only in front of an
operator does it leave a choice: to shift it, or to reduce the operation before it. Precedence makes that
choice, so no row is left with two actions. -/
namespace ForkingLR

theorem Action.ofIsShift {action : Action} (h : action.isShift = true) : ∃ t, action = .shift t := by
  cases action with
  | shift t => exact ⟨t, rfl⟩
  | reduce _ => cases h
  | goto _ => cases h
  | accept => cases h

theorem Contender.duelPair {p q : Precedence} (agrees : p.Agrees q) (decided : p.assoc ≠ .nonAssoc) (t id : Nat) :
    let winner : Contender := if p.Under .left q then ⟨.reduce id, q⟩ else ⟨.shift t, p⟩
    duel ⟨.shift t, p⟩ ⟨.reduce id, q⟩ = some winner ∧ duel ⟨.reduce id, q⟩ ⟨.shift t, p⟩ = some winner := by
  dsimp only
  by_cases under : p.Under .left q
  · rw [if_pos under]
    rcases under with higher | ⟨same, left⟩
    · simp [duel, Nat.compare_eq_gt.2 higher, Nat.compare_eq_lt.2 higher]
    · simp [duel, same, left, ← agrees same, Action.isReduce]
  · rw [if_neg under]
    rcases Nat.lt_trichotomy p.level q.level with higher | same | lower
    · exact absurd (.inl higher) under
    · have right : p.assoc = .right := by
        cases kind : p.assoc with
        | left => exact absurd (.inr ⟨same, kind⟩) under
        | right => rfl
        | nonAssoc => exact absurd kind decided
      simp [duel, same, right, ← agrees same, Action.isShift]
    · simp [duel, Nat.compare_eq_gt.2 lower, Nat.compare_eq_lt.2 lower]

theorem settlePair {ofProduction : Nat → Option Precedence} {p q : Precedence} (agrees : p.Agrees q)
    (decided : p.assoc ≠ .nonAssoc) {t id : Nat} (own : ofProduction id = some q) {row : List Action}
    (both : row = [.shift t, .reduce id] ∨ row = [.reduce id, .shift t]) :
    settleRow? (some p) ofProduction row = some [if p.Under .left q then .reduce id else .shift t] := by
  obtain ⟨reducing, shifting⟩ := Contender.duelPair agrees decided t id
  rcases both with rfl | rfl
  · simp [settleRow?, Contender.of?, own, reducing, apply_ite Contender.action]
  · simp [settleRow?, Contender.of?, own, shifting, apply_ite Contender.action]

namespace Grammar
open Table
variable {g : Grammar} {e n : Symbol}

namespace Operators

inductive Next (g : Grammar) (e n : Symbol) : Item → Symbol → Prop
  | start : Next g e n ⟨g.startProduction, 0⟩ e
  | operand {id : Nat} (found : g.productions[id]? = some ⟨e, [n]⟩) : Next g e n ⟨id, 0⟩ n
  | left {id : Nat} {x : Symbol} (found : g.productions[id]? = some ⟨e, [e, x, e]⟩) : Next g e n ⟨id, 0⟩ e
  | operator {id : Nat} {x : Symbol} {p : Precedence} (found : g.productions[id]? = some ⟨e, [e, x, e]⟩)
      (ranks : g.Ranks x p) : Next g e n ⟨id, 1⟩ x
  | right {id : Nat} {x : Symbol} (found : g.productions[id]? = some ⟨e, [e, x, e]⟩) : Next g e n ⟨id, 2⟩ e

variable (ops : g.Operators e n)
include ops

theorem next {i : Item} {y : Symbol} (h : i.next? g.productions = some y) : Next g e n i y := by
  obtain ⟨id, dot⟩ := i
  obtain ⟨p, found, here⟩ := Item.nextIff.1 h
  dsimp only at found here
  cases ops.shapes p (List.mem_of_getElem? found) with
  | start =>
    obtain rfl := ops.wellFormed.startOnly found rfl
    match dot with
    | 0 =>
      cases here
      exact .start
    | dot + 1 => simp at here
  | operand =>
    match dot with
    | 0 =>
      cases here
      exact .operand found
    | dot + 1 => simp at here
  | operation ranks =>
    match dot with
    | 0 =>
      cases here
      exact .left found
    | 1 =>
      cases here
      exact .operator found ranks
    | 2 =>
      cases here
      exact .right found
    | dot + 3 => simp at here

theorem sameId {id id' : Nat} {p : Production Symbol} (found : g.productions[id]? = some p)
    (found' : g.productions[id']? = some p) : id = id' :=
  (List.getElem?_inj (List.getElem?_eq_some_iff.1 found).1 ops.nodup).1 (found.trans found'.symm)

theorem unrankedLhs (p : Precedence) : ¬ g.Ranks e p := by
  intro ranks
  have terminal := ops.terminals ranks
  rw [ops.nonterminal] at terminal
  contradiction

theorem apart : e ≠ n := by
  rintro rfl
  have terminal := ops.terminal
  rw [ops.nonterminal] at terminal
  contradiction

theorem sameOperator {s id id' : Nat} {x x' : Symbol} (found : g.productions[id]? = some ⟨e, [e, x, e]⟩)
    (found' : g.productions[id']? = some ⟨e, [e, x', e]⟩) (held : Holds g.lr0States s ⟨id, 2⟩)
    (held' : Holds g.lr0States s ⟨id', 2⟩) : x = x' := by
  obtain ⟨r, y, move⟩ := stateEntered ops.wellFormed held
  obtain ⟨_, next⟩ := holdsBack ops.wellFormed move held
  obtain ⟨_, next'⟩ := holdsBack ops.wellFormed move held'
  simp only [Item.next?, found, found'] at next next'
  exact Option.some.inj (next.trans next'.symm)

theorem awaited {r s id : Nat} {w : Symbol} (move : Moves g.lr0States r w s) (held : Holds g.lr0States s ⟨id, 0⟩) :
    ∃ i dot, Holds g.lr0States s ⟨i, dot + 1⟩ ∧ Item.next? g.productions ⟨i, dot + 1⟩ = some e := by
  rcases inClosureOf ops.wellFormed held with ⟨start, _⟩ | ⟨items, x, inside, all⟩
  · exact absurd start (movesNotStart ops.wellFormed move)
  · suffices origin : ∀ {j}, g.InClosure (g.movedItems items x) j →
        j ∈ g.movedItems items x ∨ ∃ k ∈ g.movedItems items x, k.next? g.productions = some e by
      rcases origin inside with moved | ⟨k, moved, next⟩
      · obtain ⟨_, _, _, same⟩ := memMovedItems.1 moved
        cases same
      · obtain ⟨⟨i, dot⟩, _, _, rfl⟩ := memMovedItems.1 moved
        exact ⟨i, dot, all _ (.kernel moved), next⟩
    intro j closed
    induction closed with
    | kernel moved => exact .inl moved
    | @predict j id q before next found ih =>
      have expression : q.lhs = e := by
        cases ops.shapes q (List.mem_of_getElem? found) with
        | start => exact absurd rfl (ops.wellFormed.nextDefined next rfl).2
        | operand => rfl
        | operation _ => rfl
      exact .inr (ih.elim (fun moved => ⟨j, moved, expression ▸ next⟩) fun known => known)

inductive Last (g : Grammar) (e n : Symbol) : Item → Symbol → Prop
  | start : Last g e n ⟨g.startProduction, 0⟩ e
  | operand {id : Nat} (found : g.productions[id]? = some ⟨e, [n]⟩) : Last g e n ⟨id, 0⟩ n
  | operation {id : Nat} {x : Symbol} {p : Precedence} (found : g.productions[id]? = some ⟨e, [e, x, e]⟩)
      (ranks : g.Ranks x p) : Last g e n ⟨id, 2⟩ e

theorem last {id : Nat} {p : Production Symbol} (found : g.productions[id]? = some p) :
    ∃ dot y, p.rhs.length = dot + 1 ∧ Last g e n ⟨id, dot⟩ y := by
  cases ops.shapes p (List.mem_of_getElem? found) with
  | start =>
    obtain rfl := ops.wellFormed.startOnly found rfl
    exact ⟨0, e, rfl, .start⟩
  | operand => exact ⟨0, n, rfl, .operand found⟩
  | operation ranks => exact ⟨2, e, rfl, .operation found ranks⟩

omit ops in
theorem Last.next (wf : g.WellFormed) (start : g.start = e) {i : Item} {y : Symbol} (h : Last g e n i y) :
    i.next? g.productions = some y := by
  cases h with
  | start => exact Item.nextIff.2 ⟨_, wf.startProduction, start ▸ rfl⟩
  | operand found => exact Item.nextIff.2 ⟨_, found, rfl⟩
  | operation found _ => exact Item.nextIff.2 ⟨_, found, rfl⟩

theorem unrankedLast {i : Item} {y : Symbol} (h : Last g e n i y) (p : Precedence) : ¬ g.Ranks y p := by
  cases h with
  | start => exact ops.unrankedLhs p
  | operand _ => exact ops.unranked p
  | operation _ _ => exact ops.unrankedLhs p

theorem entered {s id : Nat} {p : Production Symbol} (found : g.productions[id]? = some p)
    (held : Holds g.lr0States s ⟨id, p.rhs.length⟩) : ∃ r y, Moves g.lr0States r y s := by
  obtain ⟨dot, _, length, _⟩ := ops.last found
  rw [length] at held
  exact stateEntered ops.wellFormed held

theorem completed {r s id : Nat} {y : Symbol} {p : Production Symbol} (move : Moves g.lr0States r y s)
    (found : g.productions[id]? = some p) (held : Holds g.lr0States s ⟨id, p.rhs.length⟩) :
    ∃ dot, Holds g.lr0States r ⟨id, dot⟩ ∧ Last g e n ⟨id, dot⟩ y := by
  obtain ⟨dot, y', length, last⟩ := ops.last found
  rw [length] at held
  obtain ⟨before, next⟩ := holdsBack ops.wellFormed move held
  obtain rfl := Option.some.inj ((last.next ops.wellFormed ops.start).symm.trans next)
  exact ⟨dot, before, last⟩

theorem notBoth {r id : Nat} (start : Holds g.lr0States r ⟨g.startProduction, 0⟩)
    (held : Holds g.lr0States r ⟨id, 2⟩) : False := by
  obtain rfl := startStateOnly ops.wellFormed start
  cases startStateFresh ops.wellFormed held

theorem soleCompletion {s id id' : Nat} {p p' : Production Symbol} (found : g.productions[id]? = some p)
    (found' : g.productions[id']? = some p') (held : Holds g.lr0States s ⟨id, p.rhs.length⟩)
    (held' : Holds g.lr0States s ⟨id', p'.rhs.length⟩) : id = id' := by
  obtain ⟨r, y, move⟩ := ops.entered found held
  obtain ⟨dot, before, last⟩ := ops.completed move found held
  obtain ⟨dot', before', last'⟩ := ops.completed move found' held'
  have apart := ops.apart
  cases last with
  | start =>
    cases last' with
    | start => rfl
    | operand _ => exact absurd rfl apart
    | operation _ _ => exact (ops.notBoth before before').elim
  | operand here =>
    cases last' with
    | start => exact absurd rfl apart
    | operand here' => exact ops.sameId here here'
    | operation _ _ => exact absurd rfl apart
  | operation here _ =>
    cases last' with
    | start => exact (ops.notBoth before' before).elim
    | operand _ => exact absurd rfl apart
    | operation here' _ =>
      obtain rfl := ops.sameOperator here here' before before'
      exact ops.sameId here here'

theorem contested {s t id : Nat} {x : Symbol} {p : Production Symbol} (terminal : isTerminal x = true)
    (move : Moves g.lr0States s x t) (found : g.productions[id]? = some p)
    (held : Holds g.lr0States s ⟨id, p.rhs.length⟩) :
    ∃ q, g.Ranks x q ∧ (id = g.startProduction ∨
      ∃ y q', g.productions[id]? = some ⟨e, [e, y, e]⟩ ∧ g.Ranks y q') := by
  have wf := ops.wellFormed
  obtain ⟨r, w, entry⟩ := ops.entered found held
  obtain ⟨dot, before, last⟩ := ops.completed entry found held
  have expression (same : x = e) : False := by
    rw [same, ops.nonterminal] at terminal
    contradiction
  obtain ⟨i, awaits, next⟩ := nextOfMoves wf move
  cases ops.next next with
  | start => exact (expression rfl).elim
  | left _ => exact (expression rfl).elim
  | right _ => exact (expression rfl).elim
  | operand _ =>
    obtain ⟨j, dot, moved, next⟩ := ops.awaited entry awaits
    obtain ⟨_, back⟩ := holdsBack wf entry moved
    cases ops.next next with
    | operator _ ranks => exact (ops.unrankedLhs _ ranks).elim
    | right here =>
      cases ops.next back with
      | operator _ ranks => exact (ops.unrankedLast last _ ranks).elim
  | operator here ranks =>
    obtain ⟨_, back⟩ := holdsBack wf entry awaits
    obtain ⟨_, found', first⟩ := Item.nextIff.1 back
    cases here.symm.trans found'
    cases first
    cases last with
    | start => exact ⟨_, ranks, .inl rfl⟩
    | operand _ => exact absurd rfl ops.apart
    | operation here' ranks' => exact ⟨_, ranks, .inr ⟨_, _, here', ranks'⟩⟩

theorem sameKind {s : Nat} {x : Symbol} {action other : Action} (terminal : isTerminal x = true)
    (offered : g.Offers s x action) (offered' : g.Offers s x other) (kind : action.isShift = other.isShift) :
    action = other := by
  have wf := ops.wellFormed
  cases offered with
  | goto nonterminal _ => simp [terminal] at nonterminal
  | shift _ move =>
    cases offered' with
    | shift _ move' => rw [movesUnique move move']
    | goto _ _ => cases kind
    | reduce _ _ _ _ _ => cases kind
    | accept _ _ => cases kind
  | reduce _ _ different found held =>
    cases offered' with
    | shift _ _ => cases kind
    | goto nonterminal _ => simp [terminal] at nonterminal
    | reduce _ _ _ found' held' => rw [ops.soleCompletion found found' held held']
    | accept _ held' => exact absurd (ops.soleCompletion found wf.startProduction held held') different
  | accept _ held =>
    cases offered' with
    | shift _ _ => cases kind
    | goto nonterminal _ => simp [terminal] at nonterminal
    | reduce _ _ different found' held' =>
      exact absurd (ops.soleCompletion found' wf.startProduction held' held) different
    | accept _ _ => rfl

structure Choice (g : Grammar) (e x : Symbol) (id : Nat) (p q : Precedence) : Prop where
  ranks : g.Ranks x p
  operation : ∃ y, g.productions[id]? = some ⟨e, [e, y, e]⟩ ∧ g.Ranks y q

theorem choice {s t : Nat} {x : Symbol} {other : Action} (terminal : isTerminal x = true)
    (offered : g.Offers s x (.shift t)) (offered' : g.Offers s x other) (kind : other.isShift = false) :
    ∃ id p q, other = .reduce id ∧ Choice g e x id p q := by
  cases offered with
  | shift _ move =>
    cases offered' with
    | shift _ _ => cases kind
    | goto nonterminal _ => simp [terminal] at nonterminal
    | @reduce id _ _ _ different found held =>
      obtain ⟨p, ranks, operation⟩ := ops.contested terminal move found held
      obtain ⟨y, q, here, ranks'⟩ := operation.resolve_left different
      exact ⟨id, p, q, rfl, ranks, y, here, ranks'⟩
    | accept last held =>
      obtain ⟨p, ranks, _⟩ := ops.contested terminal move ops.wellFormed.startProduction held
      exact absurd last (ops.reserved ranks).1

theorem rowCases {s : Nat} {x : Symbol} {row : List Action} (terminal : isTerminal x = true)
    (distinct : row.Nodup) (offered : ∀ action ∈ row, g.Offers s x action) :
    row.length ≤ 1 ∨ ∃ t id p q, (row = [.shift t, .reduce id] ∨ row = [.reduce id, .shift t]) ∧
      Choice g e x id p q := by
  match row with
  | [] => exact .inl (Nat.zero_le _)
  | [_] => exact .inl (Nat.le_refl _)
  | first :: second :: rest =>
    simp only [List.nodup_cons, List.mem_cons, not_or] at distinct
    obtain ⟨⟨different, new⟩, new', _⟩ := distinct
    simp only [List.forall_mem_cons] at offered
    obtain ⟨one, two, others⟩ := offered
    have kinds : first.isShift ≠ second.isShift := fun kind => different (ops.sameKind terminal one two kind)
    obtain rfl : rest = [] := by
      refine List.eq_nil_iff_forall_not_mem.2 fun third inside => ?_
      rcases eq_or_ne third.isShift first.isShift with kind | kind
      · exact new (ops.sameKind terminal (others third inside) one kind ▸ inside)
      · have kind' : third.isShift = second.isShift := by
          rw [Bool.eq_not.2 kind, Bool.eq_not.2 kinds, Bool.not_not]
        exact new' (ops.sameKind terminal (others third inside) two kind' ▸ inside)
    right
    cases kind : first.isShift with
    | true =>
      obtain ⟨t, rfl⟩ := Action.ofIsShift kind
      obtain ⟨id, p, q, rfl, choice⟩ := ops.choice terminal one two (by simpa [kind] using kinds.symm)
      exact ⟨t, id, p, q, .inl rfl, choice⟩
    | false =>
      obtain ⟨t, rfl⟩ := Action.ofIsShift (by simpa [kind] using kinds.symm)
      obtain ⟨id, p, q, rfl, choice⟩ := ops.choice terminal two one kind
      exact ⟨t, id, p, q, .inr rfl, choice⟩

theorem precedenceOf {id : Nat} {y : Symbol} {q : Precedence} (found : g.productions[id]? = some ⟨e, [e, y, e]⟩)
    (ranks : g.Ranks y q) : g.productionPrecedence? id = some q := by
  simp only [productionPrecedence?, production?, found, PrecedenceTable.ofProduction?, ops.plain id,
    Production.lastTerminal?, Option.none_or, Option.bind_eq_bind, Option.bind_some]
  simp [ops.nonterminal, ops.terminals ranks]
  exact ranks

theorem errorless : g.usesError = false := by
  have nonterminal := ops.nonterminal
  rw [usesError, List.any_eq_false]
  intro p listed
  have proper : Symbol.error ≠ e := by
    rintro rfl
    cases nonterminal
  cases ops.shapes p listed with
  | start => simpa using proper
  | operand => simpa using ops.ordinary.2.symm
  | operation ranks => simpa [proper] using (ops.reserved ranks).2.symm

theorem associative : g.Associative := fun _ _ ranks => ops.decided ranks

end Operators
end Grammar

namespace Automaton
open Table
open Grammar.Operators (Choice)
variable {g : Grammar} {a : Automaton} {e n : Symbol} {s : Nat} {x : Symbol}

inductive Settles (g : Grammar) (e : Symbol) (s : Nat) (x : Symbol) (row : List Action) : Prop
  | plain (short : row.length ≤ 1) (all : ∀ action, action ∈ row ↔ g.Allows {} s x action)
  | chosen {t id : Nat} {p q : Precedence} (choice : Choice g e x id p q)
      (shift : g.Offers s x (.shift t)) (reduce : g.Offers s x (.reduce id))
      (best : row = [if p.Under .left q then .reduce id else .shift t])

theorem rowSettled (wf : g.WellFormed) (errorless : g.usesError = false) (table : build g {} = .ok a) (s : Nat)
    (terminal : isTerminal x = true) :
    ∃ row : List Action, row.Nodup ∧ (∀ action, action ∈ row ↔ g.Allows {} s x action) ∧
      (row.length ≤ 1 → a.actions s x = row) ∧
      (1 < row.length → g.precedence.isEmpty = false →
        settleRow? (g.precedence.ofTerminal? x) g.productionPrecedence? row = some (a.actions s x)) := by
  obtain ⟨rfl, _, _, states, looked, settled⟩ := buildIff.1 table
  have pointwise := settledPointwise settled
  cases placed : states[s]? with
  | none =>
    have unplaced : a.states[s]? = none := by
      rcases pointwise with ⟨_, same⟩ | pointwise
      · rw [same]
        exact placed
      · rcases pointwise.at s with ⟨_, none⟩ | ⟨_, _, some, _⟩
        · exact none
        · cases placed.symm.trans some
    have nothing (action : Action) : ¬ a.grammar.Allows {} s x action := by
      intro allowed
      obtain ⟨st, here⟩ := offersState allowed.offered
      obtain ⟨_, pruned, _⟩ := lookaheadPointwise looked
      rcases pruned.at s with ⟨none, _⟩ | ⟨_, _, _, some, _⟩
      · cases here.symm.trans none
      · cases placed.symm.trans some
    refine ⟨[], List.nodup_nil, fun action => iff_of_false List.not_mem_nil (nothing action), ?_, nofun⟩
    intro _
    rw [actions, unplaced]
  | some st =>
    refine ⟨st.actionsOn x, Grammar.lookedNodup wf looked placed x, fun action =>
      Grammar.lookedIff wf (fun _ => errorless) looked placed, ?_⟩
    rcases pointwise with ⟨empty, same⟩ | pointwise
    · exact ⟨fun _ => actionsAt (same ▸ placed) x, fun _ some => by cases empty.symm.trans some⟩
    · rcases pointwise.at s with ⟨none, _⟩ | ⟨_, st', some, placed', resolved⟩
      · cases placed.symm.trans none
      · cases placed.symm.trans some
        rw [actionsAt placed']
        exact ⟨fun short => resolved.others x fun contested => absurd contested.2 (not_lt.2 short),
          fun several _ => resolved.contested x terminal several⟩

theorem settlesBuild (ops : g.Operators e n) (table : build g {} = .ok a) (s : Nat)
    (terminal : isTerminal x = true) : Settles g e s x (a.actions s x) := by
  obtain ⟨row, distinct, all, kept, settled⟩ := rowSettled ops.wellFormed ops.errorless table s terminal
  rcases ops.rowCases terminal distinct (fun action listed => ((all action).1 listed).offered) with
    short | ⟨t, id, p, q, both, choice⟩
  · rw [kept short]
    exact .plain short all
  · obtain ⟨y, found, ranks⟩ := choice.operation
    have ranked : g.precedence.isEmpty = false := by
      have listed := SortedMap.getSomeIff.1 choice.ranks
      exact List.isEmpty_eq_false_iff.2 (List.ne_nil_of_mem listed)
    have several : 1 < row.length := by rcases both with rfl | rfl <;> exact Nat.lt_add_one 1
    have settled := settled several ranked
    rw [PrecedenceTable.ofTerminal?, if_pos terminal, choice.ranks, settlePair (ops.agrees choice.ranks ranks)
      (ops.decided choice.ranks) (ops.precedenceOf found ranks) both] at settled
    have shift : .shift t ∈ row := by rcases both with rfl | rfl <;> simp
    have reduce : .reduce id ∈ row := by rcases both with rfl | rfl <;> simp
    exact .chosen choice ((all _).1 shift).offered ((all _).1 reduce).offered (Option.some.inj settled).symm

section
variable (ops : g.Operators e n) (table : build g {} = .ok a)
include ops table

theorem shiftStays {t : Nat} (terminal : isTerminal x = true) (move : Moves g.lr0States s x t)
    (first : ∀ {id y p q}, Holds g.lr0States s ⟨id, 3⟩ → g.productions[id]? = some ⟨e, [e, y, e]⟩ →
      g.Ranks x p → g.Ranks y q → ¬ p.Under .left q) : .shift t ∈ a.actions s x := by
  cases settlesBuild ops table s terminal with
  | plain _ all => exact (all _).2 ⟨.shift terminal move, fun _ => nofun⟩
  | chosen choice shift reduce best =>
    obtain ⟨y, found, ranks⟩ := choice.operation
    cases shift with
    | shift _ move' =>
      cases reduce with
      | reduce _ _ _ found' held =>
        cases found.symm.trans found'
        rw [best, if_neg (first held found choice.ranks ranks), movesUnique move move']
        exact List.mem_singleton.2 rfl

theorem reduceStays {id : Nat} (allowed : g.Allows {} s x (.reduce id))
    (first : ∀ {y p q}, g.productions[id]? = some ⟨e, [e, y, e]⟩ → g.Ranks x p → g.Ranks y q → p.Under .left q) :
    .reduce id ∈ a.actions s x := by
  have terminal : isTerminal x = true := by
    cases allowed.offered with
    | reduce known _ _ _ _ => exact Grammar.isTerminalOfMem known
  cases settlesBuild ops table s terminal with
  | plain _ all => exact (all _).2 allowed
  | chosen choice shift reduce best =>
    obtain ⟨y, found, ranks⟩ := choice.operation
    cases ops.sameKind terminal reduce allowed.offered rfl
    rw [best, if_pos (first found choice.ranks ranks)]
    exact List.mem_singleton.2 rfl

theorem acceptStays (held : Holds g.lr0States s ⟨g.startProduction, 1⟩) : .accept ∈ a.actions s .endOfInput := by
  have offered : g.Offers s .endOfInput .accept := .accept rfl held
  cases settlesBuild ops table s (x := .endOfInput) rfl with
  | plain _ all => exact (all _).2 ⟨offered, fun _ => nofun⟩
  | chosen choice shift reduce best => cases ops.sameKind rfl reduce offered rfl

end

end Automaton
end ForkingLR
