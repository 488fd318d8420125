import ForkingLR.Proofs.Automaton.Totality
import ForkingLR.Proofs.Table.Renaming

/-! Building does not depend on how symbols are numbered: if a table is built for one grammar, the same
table, in related symbols, is built for every grammar that is like it. -/
namespace ForkingLR

namespace State
variable {R : Symbol → Symbol → Prop} {s t s' t' : State}

theorem Alike.reductions (alike : Alike R s t) : s.reductions = t.reductions := by
  refine SortedSet.eqOfMembers (SortedSet.sorted _) (SortedSet.sorted _) fun id => ?_
  show id ∈ s.reductions ↔ id ∈ t.reductions
  rw [memReductions, memReductions]
  constructor
  · rintro ⟨x, listed⟩
    obtain ⟨y, related⟩ := alike.named (.inr (List.ne_nil_of_mem listed))
    exact ⟨y, alike.actions related ▸ listed⟩
  · rintro ⟨y, listed⟩
    obtain ⟨x, related⟩ := alike.named' (.inr (List.ne_nil_of_mem listed))
    exact ⟨x, alike.actions related ▸ listed⟩

theorem Alike.after (alike : Alike R s t) (items : s'.items = s.items) (items' : t'.items = t.items)
    (moves : s'.transitions = s.transitions) (moves' : t'.transitions = t.transitions)
    (subset : ∀ x, s'.actionsOn x ⊆ s.actionsOn x) (subset' : ∀ y, t'.actionsOn y ⊆ t.actionsOn y)
    (actions : ∀ {x y}, R x y → s'.actionsOn x = t'.actionsOn y) : Alike R s' t' := by
  have fewer {s s' : State} (moves : s'.transitions = s.transitions)
      (subset : ∀ x, s'.actionsOn x ⊆ s.actionsOn x) {x : Symbol} (h : s'.Mentions x) : s.Mentions x := by
    rcases h with move | acts
    · exact .inl (moves ▸ move)
    · obtain ⟨action, listed⟩ := List.exists_mem_of_ne_nil _ acts
      exact .inr (List.ne_nil_of_mem (subset x listed))
  refine ⟨items.trans (alike.items.trans items'.symm), ?_, actions, fun h => alike.named (fewer moves subset h),
    fun h => alike.named' (fewer moves' subset' h)⟩
  intro x y related
  rw [moves, moves', alike.moves related]

theorem Alike.prune (alike : Alike R s t) (onlyConflicts : Bool) {terminals terminals' : List Symbol}
    {lookahead lookahead' : Nat → SortedSet Symbol} (distinct : terminals.Nodup) (distinct' : terminals'.Nodup)
    (known : ∀ {x y}, R x y → (x ∈ terminals ↔ y ∈ terminals'))
    (allowed : ∀ {x y}, R x y → ∀ id, x ∈ lookahead id ↔ y ∈ lookahead' id) :
    Alike R (s.prune onlyConflicts terminals lookahead) (t.prune onlyConflicts terminals' lookahead') := by
  have cut := prunedPrune onlyConflicts terminals lookahead s
  have cut' := prunedPrune onlyConflicts terminals' lookahead' t
  refine alike.after cut.items cut'.items cut.transitions cut'.transitions
    (fun x => (cut.sublist x).subset) (fun y => (cut'.sublist y).subset) ?_
  intro x y related
  rw [pruneActions _ _ distinct, pruneActions _ _ distinct', alike.reductions, alike.actions related]
  simp only [known related, pruneRow, allowed related]

theorem Alike.resolve (alike : Alike R s t) {table table' : PrecedenceTable}
    {ofProduction ofProduction' : Nat → Option Precedence}
    (terminal : ∀ {x y}, R x y → isTerminal x = isTerminal y)
    (levels : ∀ {x y}, R x y → table.ofTerminal? x = table'.ofTerminal? y)
    (ranks : ofProduction = ofProduction') (resolved : s.resolve table ofProduction = .ok s') :
    ∃ t', t.resolve table' ofProduction' = .ok t' ∧ Alike R s' t' := by
  subst ranks
  obtain ⟨settled, _⟩ := resolveSource table ofProduction resolved
  obtain ⟨t', resolved'⟩ : ∃ t', t.resolve table' ofProduction = .ok t' := by
    refine resolveOk table' ofProduction ?_
    intro y isTerminal' several
    have acts : t.actionsOn y ≠ [] := List.ne_nil_of_length_pos (Nat.lt_of_succ_lt several)
    obtain ⟨x, related⟩ := alike.named' (.inr acts)
    rw [← alike.actions related] at several ⊢
    rw [← levels related, settled.contested x (terminal related ▸ isTerminal') several]
    rfl
  obtain ⟨settled', _⟩ := resolveSource table' ofProduction resolved'
  have cut := resolvedResolve resolved
  have cut' := resolvedResolve resolved'
  refine ⟨t', resolved', alike.after cut.items cut'.items cut.transitions cut'.transitions cut.subset
    cut'.subset ?_⟩
  intro x y related
  have same := alike.actions related
  by_cases contested : isTerminal x = true ∧ 1 < (s.actionsOn x).length
  · have here := settled.contested x contested.1 contested.2
    have here' := settled'.contested y (terminal related ▸ contested.1) (same ▸ contested.2)
    rw [← levels related, ← same, here] at here'
    exact Option.some.inj here'
  · have calm : ¬ (isTerminal y = true ∧ 1 < (t.actionsOn y).length) := by
      rwa [← terminal related, ← same]
    rw [settled.others x contested, settled'.others y calm, same]

end State

namespace Grammar
variable {R : Symbol → Symbol → Prop} {g h : Grammar} {config : TableConfig}

theorem Alike.lr0States (alike : Alike R g h) :
    List.Forall₂ (State.Alike R) g.lr0States h.lr0States := by
  have length : g.lr0States.length = h.lr0States.length := by
    simp [Grammar.lr0States, alike.collection]
  refine List.forall₂_iff_get.2 ⟨length, ?_⟩
  intro s bound bound'
  exact alike.lr0State (List.getElem?_eq_getElem bound) (List.getElem?_eq_getElem bound')

theorem Alike.lookaheadStates (alike : Alike R g h) {states : List State}
    (looked : Automaton.lookaheadStates g config = .ok states) :
    ∃ states', Automaton.lookaheadStates h config = .ok states' ∧
      List.Forall₂ (State.Alike R) states states' := by
  have plain := alike.lr0States
  simp only [Automaton.lookaheadStates] at looked ⊢
  split at looked
  · rename_i wanted
    obtain ⟨_, found', _, answer', _⟩ := lookaheadsCollect alike.wellFormed'
    rw [if_pos wanted, answer']
    split at looked
    · rename_i found answer
      cases looked
      refine ⟨_, rfl, ?_⟩
      simp only [pruneByLookahead, List.mapIdx_eq_zipIdx_map, List.forall₂_map_left_iff,
        List.forall₂_map_right_iff]
      refine (forallZipIdx plain 0).imp ?_
      rintro ⟨s, id⟩ ⟨t, _⟩ ⟨same, rfl⟩
      rw [alike.usesError]
      refine State.Alike.prune same _ (SortedSet.nodup _) (SortedSet.nodup _) ?_ ?_
      · exact alike.terminals
      · exact fun related production => alike.lookahead answer answer' related
    · cases looked
  · rename_i unwanted
    rw [if_neg unwanted]
    cases looked
    exact ⟨_, rfl, plain⟩

theorem Alike.settle (alike : Alike R g h) {states states' after : List State}
    (same : List.Forall₂ (State.Alike R) states states') (settled : g.settle config states = .ok after) :
    ∃ after', h.settle config states' = .ok after' ∧ List.Forall₂ (State.Alike R) after after' := by
  have levels {x y : Symbol} (related : R x y) :
      g.precedence.ofTerminal? x = h.precedence.ofTerminal? y := by
    simp only [PrecedenceTable.ofTerminal?, alike.names.terminal related, alike.levels related]
  unfold Grammar.settle resolveByPrecedence at settled ⊢
  rw [← alike.declares]
  split at settled
  · rename_i wanted
    rw [if_pos wanted]
    split at settled
    · rename_i nothing
      cases settled
      exact ⟨states', if_pos nothing, same⟩
    · rename_i something
      rw [if_neg something]
      refine mapMForall ?_ (forallZipIdx same 0) settled
      rintro ⟨s, id⟩ ⟨t, _⟩ after ⟨same, rfl⟩ settled
      dsimp only at same settled ⊢
      split at settled
      · rename_i answer
        cases settled
        obtain ⟨t', answer', alike'⟩ :=
          same.resolve alike.names.terminal levels (funext alike.ranks) answer
        exact ⟨t', by rw [answer'], alike'⟩
      · cases settled
  · rename_i unwanted
    rw [if_neg unwanted]
    cases settled
    exact ⟨states', rfl, same⟩

end Grammar

namespace Automaton
variable {R : Symbol → Symbol → Prop} {g h : Grammar} {config : TableConfig} {a : Automaton}

theorem rowFaultAlike (names : Renaming R) {x y : Symbol} (related : R x y) (row : List Action) :
    rowFault? x row = rowFault? y row := by
  have last := names.unique related names.endOfInput
  unfold rowFault?
  rw [names.terminal related]
  simp only [last]

theorem checkAlike (names : Renaming R) {a b : Automaton} (wf : a.grammar.WellFormed)
    (wf' : b.grammar.WellFormed) (same : List.Forall₂ (State.Alike R) a.states b.states)
    (tidy : ∀ s ∈ b.states, s.Tidy) (checked : a.check = .ok ()) : b.check = .ok () := by
  rw [checkIff wf] at checked
  rw [checkIff wf']
  intro t inside e listed
  obtain ⟨s, inside', alike⟩ := (forallMem same).2 t inside
  have acts := (tidy t inside).entry listed
  have own := (State.entryIff acts).1 listed
  obtain ⟨x, related⟩ := alike.named' (y := e.1) (.inr (own ▸ acts))
  have entry : (x, e.2) ∈ s.rows.entries := (State.entryIff acts).2 ((alike.actions related).trans own)
  rw [← rowFaultAlike names related]
  exact checked s inside' _ entry

theorem buildAlike (alike : Grammar.Alike R g h) (table : build g config = .ok a) :
    ∃ b, build h config = .ok b ∧ List.Forall₂ (State.Alike R) a.states b.states := by
  obtain ⟨rfl, rfl, checked, states, looked, settled⟩ := buildIff.1 table
  obtain ⟨states', looked', same⟩ := alike.lookaheadStates looked
  obtain ⟨final, settled', same'⟩ := alike.settle same settled
  have tidy := Grammar.tidySettle (Grammar.tidyLookahead looked') settled'
  have checked' : (⟨h, final, a.config⟩ : Automaton).check = .ok () :=
    checkAlike alike.names alike.wellFormed alike.wellFormed' same' tidy checked
  exact ⟨⟨h, final, a.config⟩, buildIff.2 ⟨rfl, rfl, checked', states', looked', settled'⟩, same'⟩

end Automaton
end ForkingLR
