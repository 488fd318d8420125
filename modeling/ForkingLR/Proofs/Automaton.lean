import ForkingLR.Proofs.Lists
import ForkingLR.Proofs.Table.Rows

/-! Built automata. Pruning and precedence leave items and transitions alone, so what holds of
the LR(0) states holds of every automaton that is built from them. -/
namespace ForkingLR

namespace State

theorem removeActionActions (s : State) (x y : Symbol) (action : Action) :
    (s.removeAction x action).actionsOn y =
      if y = x then (s.actionsOn x).filter (· ≠ action) else s.actionsOn y := setRowActions _ _ _ _

structure Pruned (allowed : Nat → Symbol → Prop) (s t : State) : Prop where
  items : t.items = s.items
  transitions : t.transitions = s.transitions
  sublist : ∀ x, (t.actionsOn x).Sublist (s.actionsOn x)
  keeps : ∀ x, ∀ action ∈ s.actionsOn x,
    (∀ id, action = .reduce id → allowed id x) → action ∈ t.actionsOn x

theorem Pruned.refl (allowed : Nat → Symbol → Prop) (s : State) : Pruned allowed s s :=
  ⟨rfl, rfl, fun _ => List.Sublist.refl _, fun _ _ h _ => h⟩

theorem Pruned.trans {allowed : Nat → Symbol → Prop} {s t u : State}
    (left : Pruned allowed s t) (right : Pruned allowed t u) : Pruned allowed s u :=
  ⟨right.items.trans left.items, right.transitions.trans left.transitions,
    fun x => (right.sublist x).trans (left.sublist x),
    fun x action h fine => right.keeps x action (left.keeps x action h fine) fine⟩

theorem prunedFold {α : Type} {allowed : Nat → Symbol → Prop} {f : State → α → State}
    (step : ∀ s a, Pruned allowed s (f s a)) (l : List α) (s : State) :
    Pruned allowed s (l.foldl f s) := by
  induction l generalizing s with
  | nil => exact .refl allowed s
  | cons a l ih => exact (step s a).trans (ih (f s a))

theorem prunedOne (onlyConflicts : Bool) (lookahead : Nat → SortedSet Symbol) (id : Nat) (s : State)
    (x : Symbol) :
    Pruned (fun id x => x ∈ lookahead id) s (pruneOne onlyConflicts (lookahead id) id s x) := by
  unfold pruneOne
  split
  · exact .refl _ s
  · rename_i outside
    split
    · exact .refl _ s
    · refine ⟨setRowItems _ _ _, setRowTransitions _ _ _, fun y => ?_, fun y action h allowed => ?_⟩
      · rw [removeActionActions]
        split
        · rename_i same
          rw [same]
          exact List.filter_sublist
        · exact List.Sublist.refl _
      · rw [removeActionActions]
        split
        · rename_i same
          subst same
          refine List.mem_filter.2 ⟨h, ?_⟩
          have kept : action ≠ .reduce id := fun same => outside (allowed id same)
          simpa using kept
        · exact h

theorem prunedPrune (onlyConflicts : Bool) (terminals : List Symbol)
    (lookahead : Nat → SortedSet Symbol) (s : State) :
    Pruned (fun id x => x ∈ lookahead id) s (s.prune onlyConflicts terminals lookahead) :=
  prunedFold (fun s id => prunedFold (prunedOne onlyConflicts lookahead id) terminals s) _ s

structure Resolved (s t : State) : Prop where
  items : t.items = s.items
  transitions : t.transitions = s.transitions
  subset : ∀ x, t.actionsOn x ⊆ s.actionsOn x
  nonterminals : ∀ x, isTerminal x = false → t.actionsOn x = s.actionsOn x

theorem Resolved.refl (s : State) : Resolved s s :=
  ⟨rfl, rfl, fun _ => List.Subset.refl _, fun _ _ => rfl⟩

end State

namespace Contender

theorem duelWinner {chosen challenger winner : Contender} (h : duel chosen challenger = some winner) :
    winner = chosen ∨ winner = challenger := by
  unfold duel at h
  split at h
  · exact Or.inr (Option.some.inj h).symm
  · exact Or.inl (Option.some.inj h).symm
  · split at h
    · rw [← Option.some.inj h]
      split <;> simp
    · rw [← Option.some.inj h]
      split <;> simp
    · contradiction

theorem foldWinner {rest : List Contender} {first winner : Contender}
    (h : rest.foldlM duel first = some winner) : winner ∈ first :: rest := by
  induction rest generalizing first with
  | nil =>
    cases Option.some.inj h
    simp
  | cons challenger rest ih =>
    rw [List.foldlM_cons] at h
    obtain ⟨next, won, later⟩ := Option.bind_eq_some_iff.1 h
    rcases List.mem_cons.1 (ih later) with rfl | inside
    · rcases duelWinner won with rfl | rfl <;> simp
    · exact List.mem_cons_of_mem _ (List.mem_cons_of_mem _ inside)

theorem ofAction {ofTerminal : Option Precedence} {ofProduction : Nat → Option Precedence}
    {action : Action} {c : Contender} (h : of? ofTerminal ofProduction action = some c) :
    c.action = action := by
  unfold of? at h
  split at h <;> try contradiction
  · obtain ⟨_, _, rfl⟩ := Option.map_eq_some_iff.1 h
    rfl
  · obtain ⟨_, _, rfl⟩ := Option.map_eq_some_iff.1 h
    rfl

theorem ofRow {ofTerminal : Option Precedence} {ofProduction : Nat → Option Precedence}
    {row : List Action} {contenders : List Contender}
    (h : row.mapM (of? ofTerminal ofProduction) = some contenders) :
    List.Forall₂ (fun action c => of? ofTerminal ofProduction action = some c) row contenders := by
  induction row generalizing contenders with
  | nil =>
    cases Option.some.inj h
    exact .nil
  | cons action row ih =>
    rw [List.mapM_cons] at h
    obtain ⟨head, first, rest⟩ := Option.bind_eq_some_iff.1 h
    obtain ⟨tail, later, same⟩ := Option.bind_eq_some_iff.1 rest
    cases Option.some.inj same
    exact .cons first (ih later)

end Contender

namespace State

theorem resolvedRow {table : PrecedenceTable} {ofProduction : Nat → Option Precedence}
    {s t u : State} {row : Symbol × List Action} (before : Resolved s t) (member : row ∈ s.contested)
    (h : t.resolveRow table ofProduction row = .ok u) : Resolved s u := by
  obtain ⟨conflict, terminal⟩ := List.mem_filter.1 member
  have own : s.actionsOn row.1 = row.2 := actionsOnEntry (List.mem_filter.1 conflict).1
  unfold resolveRow at h
  split at h
  · cases h
    exact before
  · cases h
    exact before
  · rename_i first rest contenders
    split at h <;> try contradiction
    rename_i winner won
    cases h
    obtain ⟨action, inside, speaks⟩ := (forallMem (Contender.ofRow contenders)).2 winner (Contender.foldWinner won)
    have listed : winner.action ∈ row.2 := Contender.ofAction speaks ▸ inside
    refine ⟨(setRowItems _ _ _).trans before.items, (setRowTransitions _ _ _).trans before.transitions,
      fun x action h => ?_, fun x nonterminal => ?_⟩
    · rw [setRowActions] at h
      split at h
      · rename_i same
        rw [same, own, List.mem_singleton.1 h]
        exact listed
      · exact before.subset x h
    · have other : ¬ x = row.1 := by
        rintro rfl
        rw [nonterminal] at terminal
        contradiction
      rw [setRowActions, if_neg other]
      exact before.nonterminals x nonterminal

theorem resolvedRows {table : PrecedenceTable} {ofProduction : Nat → Option Precedence}
    {s t u : State} {rows : List (Symbol × List Action)} (before : Resolved s t)
    (inside : rows ⊆ s.contested) (h : rows.foldlM (resolveRow table ofProduction) t = .ok u) :
    Resolved s u := by
  induction rows generalizing t with
  | nil =>
    cases h
    exact before
  | cons row rows ih =>
    rw [List.foldlM_cons] at h
    cases first : t.resolveRow table ofProduction row with
    | error x =>
      rw [first] at h
      contradiction
    | ok next =>
      rw [first] at h
      exact ih (resolvedRow before (inside List.mem_cons_self) first)
        (fun _ h => inside (List.mem_cons_of_mem _ h)) h

theorem resolvedResolve {table : PrecedenceTable} {ofProduction : Nat → Option Precedence} {s t : State}
    (h : s.resolve table ofProduction = .ok t) : Resolved s t :=
  resolvedRows (.refl s) (List.Subset.refl _) h

end State

def Pointwise (R : Nat → State → State → Prop) (before after : List State) : Prop :=
  before.length = after.length ∧
    ∀ (id : Nat) (s t : State), before[id]? = some s → after[id]? = some t → R id s t

theorem Pointwise.refl {R : Nat → State → State → Prop} (h : ∀ id s, R id s s) (states : List State) :
    Pointwise R states states := by
  refine ⟨rfl, ?_⟩
  intro id s t before after
  obtain rfl := Option.some.inj (before.symm.trans after)
  exact h id s

theorem Pointwise.at {R : Nat → State → State → Prop} {before after : List State}
    (h : Pointwise R before after) (id : Nat) :
    (before[id]? = none ∧ after[id]? = none) ∨
      ∃ s t, before[id]? = some s ∧ after[id]? = some t ∧ R id s t := by
  by_cases bound : id < before.length
  · have same := h.1 ▸ bound
    refine Or.inr ⟨_, _, List.getElem?_eq_getElem bound, List.getElem?_eq_getElem same, ?_⟩
    exact h.2 id _ _ (List.getElem?_eq_getElem bound) (List.getElem?_eq_getElem same)
  · have same := h.1 ▸ bound
    exact Or.inl ⟨List.getElem?_eq_none (by omega), List.getElem?_eq_none (by omega)⟩

theorem Pointwise.ofBefore {R : Nat → State → State → Prop} {before after : List State}
    (h : Pointwise R before after) {id : Nat} {s : State} (placed : before[id]? = some s) :
    ∃ t, after[id]? = some t ∧ R id s t := by
  rcases h.at id with ⟨none, _⟩ | ⟨s', t, same, there, related⟩
  · rw [placed] at none
    contradiction
  · obtain rfl := Option.some.inj (placed.symm.trans same)
    exact ⟨t, there, related⟩

theorem Pointwise.ofAfter {R : Nat → State → State → Prop} {before after : List State}
    (h : Pointwise R before after) {id : Nat} {t : State} (placed : after[id]? = some t) :
    ∃ s, before[id]? = some s ∧ R id s t := by
  rcases h.at id with ⟨_, none⟩ | ⟨s, t', there, same, related⟩
  · rw [placed] at none
    contradiction
  · obtain rfl := Option.some.inj (placed.symm.trans same)
    exact ⟨s, there, related⟩

theorem prunePointwise (states : List State) (lookaheads : Lookaheads) (terminals : List Symbol)
    (onlyConflicts : Bool) :
    Pointwise (fun s => State.Pruned fun id x => x ∈ lookaheads.getD ⟨s, id⟩ ∅) states
      (pruneByLookahead states lookaheads terminals onlyConflicts) := by
  refine ⟨by simp [pruneByLookahead], ?_⟩
  intro id s t before after
  simp only [pruneByLookahead, List.getElem?_mapIdx, before, Option.map_some, Option.some.injEq] at after
  subst after
  exact State.prunedPrune _ _ _ s

theorem mapMOkAt {α β ε : Type} {f : α → Except ε β} {l : List α} {r : List β}
    (h : l.mapM f = .ok r) :
    l.length = r.length ∧ ∀ (i : Nat) a b, l[i]? = some a → r[i]? = some b → f a = .ok b := by
  obtain ⟨length, all⟩ := List.forall₂_iff_get.1 (mapMIff.1 h)
  refine ⟨length, ?_⟩
  intro i a b before after
  obtain ⟨bound, rfl⟩ := List.getElem?_eq_some_iff.1 before
  obtain ⟨bound', rfl⟩ := List.getElem?_eq_some_iff.1 after
  exact all i bound bound'

theorem resolvePointwise {symbols : SymbolTable} {table : PrecedenceTable}
    {ofProduction : Nat → Option Precedence} {states after : List State}
    (h : resolveByPrecedence symbols table ofProduction states = .ok after) :
    Pointwise (fun _ => State.Resolved) states after := by
  unfold resolveByPrecedence at h
  split at h
  · cases h
    exact .refl (fun _ s => .refl s) _
  · obtain ⟨length, all⟩ := mapMOkAt h
    refine ⟨by simpa using length, ?_⟩
    intro id s t before same
    have here := all id (s, id) t (by simp [List.getElem?_zipIdx, before]) same
    dsimp only at here
    split at here <;> cases here
    exact State.resolvedResolve (by assumption)

def Grammar.settle (g : Grammar) (config : TableConfig) (states : List State) : Except ConstructionError (List State) :=
  if config.precedence then resolveByPrecedence g.symbols g.precedence g.productionPrecedence? states
  else pure states

namespace Automaton
open Table

variable {g : Grammar} {config : TableConfig} {a : Automaton}

theorem buildEq : build g config = (do
    let states ← lookaheadStates g config
    let final ← g.settle config states
    (⟨g, final, config⟩ : Automaton).check
    pure ⟨g, final, config⟩) := by
  unfold build Grammar.settle
  refine bind_congr fun states => ?_
  split <;> rfl

theorem buildIff {b : Automaton} :
    build g config = .ok b ↔ b.grammar = g ∧ b.config = config ∧ b.check = .ok () ∧
      ∃ states, lookaheadStates g config = .ok states ∧ g.settle config states = .ok b.states := by
  rw [buildEq]
  constructor
  · intro h
    cases looked : lookaheadStates g config with
    | error e => simp [looked, bind, Except.bind] at h
    | ok states =>
      cases settled : g.settle config states with
      | error e => simp [looked, settled, bind, Except.bind] at h
      | ok final =>
        cases checked : (⟨g, final, config⟩ : Automaton).check with
        | error e => simp [looked, settled, checked, bind, Except.bind] at h
        | ok _ =>
          simp only [looked, settled, checked, bind, Except.bind, pure, Except.pure, Except.ok.injEq] at h
          subst h
          exact ⟨rfl, rfl, checked, states, rfl, settled⟩
  · rintro ⟨rfl, rfl, checked, states, looked, settled⟩
    simp only [looked, settled, bind, Except.bind]
    rw [show (⟨b.grammar, b.states, b.config⟩ : Automaton).check = .ok () from checked]
    rfl

theorem buildSource (h : build g config = .ok a) :
    a.grammar = g ∧ a.config = config ∧ ∃ states, lookaheadStates g config = .ok states ∧
      (if config.precedence then
        resolveByPrecedence g.symbols g.precedence g.productionPrecedence? states = .ok a.states
      else a.states = states) := by
  obtain ⟨own, same, _, states, looked, settled⟩ := buildIff.1 h
  refine ⟨own, same, states, looked, ?_⟩
  unfold Grammar.settle at settled
  split
  · rename_i wanted
    rwa [if_pos wanted] at settled
  · rename_i unwanted
    rw [if_neg unwanted] at settled
    exact (Except.ok.inj settled).symm

theorem lookaheadPointwise {states : List State} (h : lookaheadStates g config = .ok states) :
    ∃ allowed : Nat → Nat → Symbol → Prop,
      Pointwise (fun s => State.Pruned (allowed s)) g.lr0States states ∧
      ∀ s id x, (∀ lookaheads, g.lookaheads g.lr0States = .ok lookaheads →
        x ∈ lookaheads.getD ⟨s, id⟩ ∅) → allowed s id x := by
  unfold lookaheadStates at h
  dsimp only at h
  split at h
  · split at h
    · rename_i lookaheads found
      cases h
      exact ⟨_, prunePointwise g.lr0States lookaheads _ _, fun _ _ _ given => given lookaheads found⟩
    · cases h
  · cases h
    exact ⟨fun _ _ _ => True, .refl (fun _ s => .refl _ s) _, fun _ _ _ _ => trivial⟩

/-- The LR(0) table of its grammar, with some actions under terminals gone. -/
structure Trimmed (a : Automaton) : Prop where
  wellFormed : a.grammar.WellFormed
  holds : ∀ {s i}, Holds a.states s i ↔ Holds a.grammar.lr0States s i
  moves : ∀ {s x t}, Moves a.states s x t ↔ Moves a.grammar.lr0States s x t
  offers : ∀ {s x action}, action ∈ a.actions s x → a.grammar.Offers s x action
  gotos : ∀ {s x t}, isTerminal x = false → Moves a.states s x t → .goto t ∈ a.actions s x

structure Kept (s t : State) : Prop where
  items : t.items = s.items
  transitions : t.transitions = s.transitions
  subset : ∀ x, t.actionsOn x ⊆ s.actionsOn x
  gotos : ∀ x target, .goto target ∈ s.actionsOn x → isTerminal x = false → .goto target ∈ t.actionsOn x

theorem keptSettle {states final : List State} (looked : lookaheadStates g config = .ok states)
    (settled : g.settle config states = .ok final) : Pointwise (fun _ => Kept) g.lr0States final := by
  have first : Pointwise (fun _ => Kept) g.lr0States states := by
    obtain ⟨allowed, pruned, _⟩ := lookaheadPointwise looked
    refine ⟨pruned.1, ?_⟩
    intro id s t before after
    have here := pruned.2 id s t before after
    exact ⟨here.items, here.transitions, fun x => (here.sublist x).subset,
      fun x target h _ => here.keeps x _ h (by simp)⟩
  unfold Grammar.settle at settled
  split at settled
  · have resolved := resolvePointwise settled
    refine ⟨first.1.trans resolved.1, ?_⟩
    intro id s u before after
    obtain ⟨t, middle, left⟩ := first.ofBefore before
    have right := resolved.2 id t u middle after
    exact ⟨right.items.trans left.items, right.transitions.trans left.transitions,
      fun x action h => left.subset x (right.subset x h), fun x target h nonterminal =>
        (right.nonterminals x nonterminal).symm ▸ left.gotos x target h nonterminal⟩
  · cases settled
    exact first

theorem terminalMember {a : Automaton} {kind : String} {x : Symbol} (h : a.terminal? kind = some x) :
    x ∈ a.grammar.terminals := by
  simpa using (Option.filter_eq_some_iff.1 h).2

theorem actionsAt {a : Automaton} {s : Nat} {st : State} (h : a.states[s]? = some st) (x : Symbol) :
    a.actions s x = st.actionsOn x := by
  simp [actions, h]

theorem trimmedSettle {states : List State} (wf : a.grammar.WellFormed)
    (looked : lookaheadStates a.grammar config = .ok states)
    (settled : a.grammar.settle config states = .ok a.states) : a.Trimmed := by
  have kept := keptSettle looked settled
  refine ⟨wf, ?_, ?_, ?_, ?_⟩
  · intro s i
    unfold Holds
    rcases kept.at s with ⟨none, none'⟩ | ⟨st, st', here, here', same⟩
    · simp [none, none']
    · simp [here, here', same.items]
  · intro s x t
    unfold Moves
    rcases kept.at s with ⟨none, none'⟩ | ⟨st, st', here, here', same⟩
    · simp [none, none']
    · simp [here, here', same.transitions]
  · intro s x action member
    rcases kept.at s with ⟨_, none⟩ | ⟨st, st', here, here', same⟩
    · simp [actions, none] at member
    · rw [actionsAt here'] at member
      exact (Grammar.actionsOffered wf here).1 (same.subset x member)
  · intro s x t nonterminal move
    obtain ⟨st', here', target⟩ := move
    obtain ⟨st, here, same⟩ := kept.ofAfter here'
    rw [actionsAt here']
    refine same.gotos x t ((Grammar.actionsOffered wf here).2 ?_) nonterminal
    exact .goto nonterminal ⟨st, here, same.transitions ▸ target⟩

theorem trimmedBuild {g : Grammar} {config : TableConfig} {a : Automaton} (built : g.Built)
    (h : build g config = .ok a) : a.Trimmed := by
  obtain ⟨rfl, _, _, states, looked, settled⟩ := buildIff.1 h
  exact trimmedSettle built.wellFormed looked settled

structure Unresolved (a : Automaton) : Prop where
  nodup : ∀ s x, (a.actions s x).Nodup
  keeps : ∀ {s x action}, a.grammar.Offers s x action →
    (∀ id lookaheads, action = .reduce id → a.grammar.lookaheads a.grammar.lr0States = .ok lookaheads →
      x ∈ lookaheads.getD ⟨s, id⟩ ∅) → action ∈ a.actions s x

theorem offersState {g : Grammar} {s : Nat} {x : Symbol} {action : Action} (h : g.Offers s x action) :
    ∃ st, g.lr0States[s]? = some st := by
  cases h with
  | shift _ move => exact ⟨move.choose, move.choose_spec.1⟩
  | goto _ move => exact ⟨move.choose, move.choose_spec.1⟩
  | reduce _ _ _ _ complete => exact ⟨complete.choose, complete.choose_spec.1⟩
  | accept _ complete => exact ⟨complete.choose, complete.choose_spec.1⟩

theorem unresolvedBuild {g : Grammar} {config : TableConfig} {a : Automaton} (built : g.Built)
    (h : build g config = .ok a) (free : config.precedence = false ∨ g.precedence.isEmpty = true) :
    a.Unresolved := by
  have wf := built.wellFormed
  obtain ⟨rfl, _, states, looked, final⟩ := buildSource h
  have same : a.states = states := by
    split at final
    · rename_i wanted
      rcases free with unwanted | empty
      · rw [unwanted] at wanted
        contradiction
      · simp only [resolveByPrecedence, empty, if_true] at final
        exact (Except.ok.inj final).symm
    · exact final
  obtain ⟨allowed, pointwise, allows⟩ := lookaheadPointwise looked
  rw [← same] at pointwise
  constructor
  · intro s x
    rcases pointwise.at s with ⟨_, none⟩ | ⟨st, st', here, here', cut⟩
    · simp [actions, none]
    · rw [actionsAt here']
      exact (Grammar.actionsNodup wf here x).sublist (cut.sublist x)
  · intro s x action offered fine
    obtain ⟨st, here⟩ := offersState offered
    obtain ⟨st', here', cut⟩ := pointwise.ofBefore here
    rw [actionsAt here']
    refine cut.keeps x action ((Grammar.actionsOffered wf here).2 offered) ?_
    intro id reduce
    exact allows s id x fun lookaheads found => fine id lookaheads reduce found

end Automaton
end ForkingLR
