import ForkingLR.Proofs.Table.Lookahead
import ForkingLR.Proofs.Table.Passes

/-! Building comes to an end with a table, or with a row that a non-associative level leaves open. Every
walk of the tagged grammar has its transitions, and no pass leaves a row that the check refuses. -/
namespace ForkingLR

namespace Contender

theorem duelDecides (chosen : Contender) {challenger : Contender}
    (decided : challenger.precedence.assoc ≠ .nonAssoc) : ∃ winner, chosen.duel challenger = some winner := by
  unfold duel
  split
  · exact ⟨_, rfl⟩
  · exact ⟨_, rfl⟩
  · split
    · exact ⟨_, rfl⟩
    · exact ⟨_, rfl⟩
    · contradiction

theorem foldDecides {rest : List Contender} (decided : ∀ c ∈ rest, c.precedence.assoc ≠ .nonAssoc)
    (first : Contender) : ∃ winner, rest.foldlM duel first = some winner := by
  induction rest generalizing first with
  | nil => exact ⟨first, rfl⟩
  | cons challenger rest ih =>
    obtain ⟨here, later⟩ := List.forall_mem_cons.1 decided
    obtain ⟨next, won⟩ := duelDecides first here
    obtain ⟨winner, last⟩ := ih later next
    exact ⟨winner, by rw [List.foldlM_cons, won]; exact last⟩

theorem ofPrecedence {ofTerminal : Option Precedence} {ofProduction : Nat → Option Precedence}
    {action : Action} {c : Contender} (h : of? ofTerminal ofProduction action = some c) :
    ofTerminal = some c.precedence ∨ ∃ id, ofProduction id = some c.precedence := by
  unfold of? at h
  split at h <;> try contradiction
  · obtain ⟨_, declared, rfl⟩ := Option.map_eq_some_iff.1 h
    exact .inl declared
  · obtain ⟨_, declared, rfl⟩ := Option.map_eq_some_iff.1 h
    exact .inr ⟨_, declared⟩

end Contender

theorem settleDecides {ofTerminal : Option Precedence} {ofProduction : Nat → Option Precedence} {row : List Action}
    (decided : ∀ action c, Contender.of? ofTerminal ofProduction action = some c → c.precedence.assoc ≠ .nonAssoc) :
    (settleRow? ofTerminal ofProduction row).isSome = true := by
  unfold settleRow?
  split
  · rfl
  · rfl
  · rename_i first rest contenders
    have associate : ∀ c ∈ rest, c.precedence.assoc ≠ .nonAssoc := by
      intro c listed
      obtain ⟨action, _, own⟩ := (forallMem (Contender.ofRow contenders)).2 c (List.mem_cons_of_mem _ listed)
      exact decided action c own
    obtain ⟨winner, won⟩ := Contender.foldDecides associate first
    simp [won]

theorem settleNodup {ofTerminal : Option Precedence} {ofProduction : Nat → Option Precedence}
    {row row' : List Action} (distinct : row.Nodup) (h : settleRow? ofTerminal ofProduction row = some row') :
    row'.Nodup := by
  unfold settleRow? at h
  split at h
  · exact Option.some.inj h ▸ distinct
  · exact Option.some.inj h ▸ distinct
  · obtain ⟨winner, _, rfl⟩ := Option.map_eq_some_iff.1 h
    exact List.nodup_singleton _

theorem settledPointwise {symbols : SymbolTable} {table : PrecedenceTable}
    {ofProduction : Nat → Option Precedence} {states after : List State}
    (h : resolveByPrecedence symbols table ofProduction states = .ok after) :
    table.isEmpty = true ∧ after = states ∨
      Pointwise (fun _ => State.Settled table ofProduction) states after := by
  unfold resolveByPrecedence at h
  split at h
  · rename_i nothing
    cases h
    exact .inl ⟨nothing, rfl⟩
  · obtain ⟨length, all⟩ := mapMOkAt h
    refine .inr ⟨by simpa using length, ?_⟩
    intro id s t before same
    have here := all id (s, id) t (by simp [List.getElem?_zipIdx, before]) same
    dsimp only at here
    split at here <;> cases here
    exact (State.resolveSource _ _ (by assumption)).1

theorem settledFails {symbols : SymbolTable} {table : PrecedenceTable}
    {ofProduction : Nat → Option Precedence} {states : List State} {e : ConstructionError}
    (h : resolveByPrecedence symbols table ofProduction states = .error e) :
    ∃ id s x, states[id]? = some s ∧ e = .nonAssociative id (symbols.name x) ∧ isTerminal x = true ∧
      1 < (s.actionsOn x).length ∧ settleRow? (table.ofTerminal? x) ofProduction (s.actionsOn x) = none := by
  unfold resolveByPrecedence at h
  split at h
  · cases h
  · obtain ⟨⟨s, id⟩, listed, failed⟩ := mapMError h
    dsimp only at failed
    split at failed
    · cases failed
    · rename_i x fails
      cases failed
      exact ⟨id, s, x, List.mem_zipIdx_iff_getElem?.1 listed, rfl, State.resolveFails _ _ fails⟩

namespace Grammar
open Table
variable {g : Grammar} {config : TableConfig}

def Associative (g : Grammar) : Prop :=
  ∀ x p, g.precedence.terminals.get? x = some p → p.assoc ≠ .nonAssoc

theorem speaksDeclared {x : Symbol} {action : Action} {c : Contender}
    (h : Contender.of? (g.precedence.ofTerminal? x) g.productionPrecedence? action = some c) :
    ∃ y, g.precedence.terminals.get? y = some c.precedence := by
  rcases Contender.ofPrecedence h with declared | ⟨id, declared⟩
  · exact ⟨x, (Option.ite_none_right_eq_some.1 declared).2⟩
  · obtain ⟨_, _, declared⟩ := Option.bind_eq_some_iff.1 declared
    obtain ⟨y, _, declared⟩ := Option.bind_eq_some_iff.1 declared
    exact ⟨y, declared⟩

theorem lookaheadStatesOk (wf : g.WellFormed) (config : TableConfig) :
    ∃ states, Automaton.lookaheadStates g config = .ok states := by
  obtain ⟨_, lookaheads, _, answer, _⟩ := lookaheadsCollect wf
  simp only [Automaton.lookaheadStates, answer]
  split
  · exact ⟨_, rfl⟩
  · exact ⟨_, rfl⟩

theorem settleFails {states : List State} {e : ConstructionError} (h : g.settle config states = .error e) :
    ∃ s name, e = .nonAssociative s name := by
  unfold settle at h
  split at h
  · obtain ⟨s, _, x, _, same, _⟩ := settledFails h
    exact ⟨s, _, same⟩
  · cases h

theorem settleOk (associative : config.precedence = false ∨ g.Associative) (states : List State) :
    ∃ final, g.settle config states = .ok final := by
  cases result : g.settle config states with
  | ok final => exact ⟨final, rfl⟩
  | error e =>
    unfold settle at result
    split at result
    · rename_i wanted
      have associative : g.Associative := by simpa [wanted] using associative
      obtain ⟨_, s, x, _, _, _, _, fails⟩ := settledFails result
      have settles : (settleRow? (g.precedence.ofTerminal? x) g.productionPrecedence? (s.actionsOn x)).isSome = true := by
        refine settleDecides fun action c speaks => ?_
        obtain ⟨y, declared⟩ := speaksDeclared speaks
        exact associative y _ declared
      rw [fails] at settles
      cases settles
    · cases result

theorem lookedSublist {states : List State} (looked : Automaton.lookaheadStates g config = .ok states)
    {id : Nat} {s : State} (placed : states[id]? = some s) :
    ∃ s₀, g.lr0States[id]? = some s₀ ∧ ∀ x, (s.actionsOn x).Sublist (s₀.actionsOn x) := by
  obtain ⟨_, pruned, _⟩ := Automaton.lookaheadPointwise looked
  obtain ⟨s₀, placed₀, cut⟩ := pruned.ofAfter placed
  exact ⟨s₀, placed₀, cut.sublist⟩

theorem lookedNodup (wf : g.WellFormed) {states : List State}
    (looked : Automaton.lookaheadStates g config = .ok states) {id : Nat} {s : State}
    (placed : states[id]? = some s) (x : Symbol) : (s.actionsOn x).Nodup := by
  obtain ⟨s₀, placed₀, cut⟩ := lookedSublist looked placed
  exact (actionsNodup wf placed₀ x).sublist (cut x)

theorem rowsNodup (wf : g.WellFormed) {states final : List State}
    (looked : Automaton.lookaheadStates g config = .ok states) (settled : g.settle config states = .ok final) :
    ∀ s ∈ final, ∀ x, (s.actionsOn x).Nodup := by
  have before {id : Nat} {s : State} (placed : states[id]? = some s) := lookedNodup wf looked placed
  intro t inside x
  obtain ⟨id, placed⟩ := List.mem_iff_getElem?.1 inside
  unfold settle at settled
  split at settled
  · rcases settledPointwise settled with ⟨_, rfl⟩ | pointwise
    · exact before placed x
    · obtain ⟨s, placed', row⟩ := pointwise.ofAfter placed
      by_cases contested : isTerminal x = true ∧ 1 < (s.actionsOn x).length
      · exact settleNodup (before placed' x) (row.contested x contested.1 contested.2)
      · rw [row.others x contested]
        exact before placed' x
  · cases settled
    exact before placed x

theorem tidyStateOf (sets : List (List Item)) (items : List Item) : (g.stateOf sets items).Tidy :=
  State.tidyFold (fun _ _ tidy => State.tidySetRow tidy _ _) _ nofun

theorem tidyLookahead {states : List State} (looked : Automaton.lookaheadStates g config = .ok states) :
    ∀ s ∈ states, s.Tidy := by
  have plain : ∀ s ∈ g.lr0States, s.Tidy := by
    intro s inside
    obtain ⟨items, _, rfl⟩ := List.mem_map.1 inside
    exact tidyStateOf _ _
  simp only [Automaton.lookaheadStates] at looked
  split at looked
  · split at looked
    · cases looked
      intro s inside
      obtain ⟨i, bound, rfl⟩ := List.mem_mapIdx.1 inside
      exact State.tidyPrune _ _ _ (plain _ (List.getElem_mem bound))
    · cases looked
  · cases looked
    exact plain

theorem tidySettle {states after : List State} (tidy : ∀ s ∈ states, s.Tidy)
    (settled : g.settle config states = .ok after) : ∀ s ∈ after, s.Tidy := by
  unfold Grammar.settle resolveByPrecedence at settled
  split at settled
  · split at settled
    · cases settled
      exact tidy
    · intro t inside
      obtain ⟨⟨s, id⟩, listed, here⟩ := (forallMem (mapMIff.1 settled)).2 t inside
      dsimp only at here
      split at here
      · rename_i answer
        cases here
        exact (State.resolveSource _ _ answer).2 (tidy s (List.fst_mem_of_mem_zipIdx listed))
      · cases here
  · cases settled
    exact tidy

end Grammar

namespace Automaton
open Table
variable {g : Grammar} {config : TableConfig} {a : Automaton}

theorem checkIff (wf : a.grammar.WellFormed) :
    a.check = .ok () ↔ ∀ s ∈ a.states, ∀ e ∈ s.rows.entries, rowFault? e.1 e.2 = none := by
  have complete : a.undefined? = none := by
    refine List.find?_eq_none.2 ?_
    intro x used
    obtain ⟨p, listed, inside⟩ := List.mem_flatMap.1 used
    cases terminal : isTerminal x with
    | true => simp
    | false =>
      obtain ⟨q, listed', lhs, _⟩ := wf.defined p listed x inside terminal
      have defined : a.grammar.cfg.defines x = true := List.any_eq_true.2 ⟨q, listed', by simp [lhs]⟩
      simp [defined]
  have faultless (id : Nat) (s : State) :
      stateFault? id s = none ↔ ∀ e ∈ s.rows.entries, rowFault? e.1 e.2 = none := by
    simp [stateFault?, List.findSome?_eq_none_iff]
  have all : (a.states.zipIdx.findSome? fun p => stateFault? p.2 p.1) = none ↔
      ∀ s ∈ a.states, ∀ e ∈ s.rows.entries, rowFault? e.1 e.2 = none := by
    rw [List.findSome?_eq_none_iff]
    constructor
    · intro none s inside
      obtain ⟨id, placed⟩ := List.mem_iff_getElem?.1 inside
      exact (faultless id s).1 (none (s, id) (List.mem_zipIdx_iff_getElem?.2 placed))
    · rintro none ⟨s, id⟩ placed
      exact (faultless id s).2 (none s (List.fst_mem_of_mem_zipIdx placed))
  rw [← all]
  unfold check
  rw [complete]
  dsimp only
  split
  · rename_i found
    refine iff_of_false (by simp) fun none => ?_
    cases found.symm.trans none
  · rename_i found
    exact iff_of_true rfl found

theorem tidyBuild (table : build g config = .ok a) : ∀ s ∈ a.states, s.Tidy := by
  obtain ⟨_, _, _, states, looked, settled⟩ := buildIff.1 table
  exact Grammar.tidySettle (Grammar.tidyLookahead looked) settled

theorem nodupBuild (built : g.Built) (table : build g config = .ok a) (s : Nat) (x : Symbol) :
    (a.actions s x).Nodup := by
  obtain ⟨rfl, _, _, states, looked, settled⟩ := buildIff.1 table
  cases placed : a.states[s]? with
  | none => simp [actions, placed]
  | some st =>
    rw [actionsAt placed]
    exact Grammar.rowsNodup built.wellFormed looked settled st (List.mem_of_getElem? placed) x

theorem Trimmed.soleGoto (trimmed : a.Trimmed) {s : Nat} {x : Symbol} (nonterminal : isTerminal x = false)
    (distinct : (a.actions s x).Nodup) (some : a.actions s x ≠ []) : ∃ t, a.actions s x = [.goto t] := by
  have goto : ∀ action ∈ a.actions s x, ∃ t, action = .goto t ∧ Moves a.grammar.lr0States s x t := by
    intro action listed
    cases trimmed.offers listed with
    | goto _ move => exact ⟨_, rfl, move⟩
    | shift terminal _ => simp [terminal] at nonterminal
    | reduce known _ _ _ _ => simp [Grammar.isTerminalOfMem known] at nonterminal
    | accept last _ =>
      subst last
      cases nonterminal
  obtain ⟨action, listed⟩ := List.exists_mem_of_ne_nil _ some
  obtain ⟨t, rfl, move⟩ := goto action listed
  have only : ∀ other, other ∈ a.actions s x ↔ other ∈ [.goto t] := by
    intro other
    rw [List.mem_singleton]
    constructor
    · intro listed'
      obtain ⟨t', rfl, move'⟩ := goto other listed'
      rw [movesUnique move move']
    · rintro rfl
      exact listed
  exact ⟨t, List.perm_singleton.1 ((List.perm_ext_iff_of_nodup distinct (List.nodup_singleton _)).2 only)⟩

theorem Trimmed.checked (trimmed : a.Trimmed) (tidy : ∀ s ∈ a.states, s.Tidy)
    (distinct : ∀ s ∈ a.states, ∀ x, (s.actionsOn x).Nodup) : a.check = .ok () := by
  refine (checkIff trimmed.wellFormed).2 ?_
  rintro st inside ⟨x, row⟩ listed
  obtain ⟨s, placed⟩ := List.mem_iff_getElem?.1 inside
  have acts := (tidy st inside).entry listed
  have own : a.actions s x = row := (actionsAt placed x).trans ((State.entryIff acts).1 listed)
  unfold rowFault?
  cases terminal : isTerminal x with
  | true =>
    rw [if_pos rfl, List.findSome?_eq_none_iff]
    intro action member
    cases trimmed.offers (own ▸ member) with
    | shift _ _ => rfl
    | goto nonterminal _ => simp [terminal] at nonterminal
    | reduce _ _ _ _ _ => rfl
    | accept last _ => exact if_pos last
  | false =>
    have distinct' : (a.actions s x).Nodup := (actionsAt placed x) ▸ distinct st inside x
    obtain ⟨t, sole⟩ := trimmed.soleGoto terminal distinct' (own ▸ acts)
    rw [show row = [.goto t] from own.symm.trans sole]
    rfl

theorem buildOfSettled (wf : g.WellFormed) {states final : List State}
    (looked : lookaheadStates g config = .ok states) (settled : g.settle config states = .ok final) :
    build g config = .ok ⟨g, final, config⟩ := by
  have trimmed : (⟨g, final, config⟩ : Automaton).Trimmed := trimmedSettle wf looked settled
  have checked := trimmed.checked (Grammar.tidySettle (Grammar.tidyLookahead looked) settled)
    (Grammar.rowsNodup wf looked settled)
  exact buildIff.2 ⟨rfl, rfl, checked, states, looked, settled⟩

theorem buildOk (wf : g.WellFormed) (associative : config.precedence = false ∨ g.Associative) :
    ∃ a, build g config = .ok a := by
  obtain ⟨states, looked⟩ := Grammar.lookaheadStatesOk wf config
  obtain ⟨final, settled⟩ := Grammar.settleOk associative states
  exact ⟨_, buildOfSettled wf looked settled⟩

theorem buildDecided (built : g.Built) (config : TableConfig) :
    ((∃ a, build g config = .ok a) ∨ ∃ s name, build g config = .error (.nonAssociative s name)) ∧
      (config.precedence = false ∨ g.Associative → ∃ a, build g config = .ok a) := by
  have wf := built.wellFormed
  refine ⟨?_, buildOk wf⟩
  obtain ⟨states, looked⟩ := Grammar.lookaheadStatesOk wf config
  cases settled : g.settle config states with
  | ok final => exact .inl ⟨_, buildOfSettled wf looked settled⟩
  | error e =>
    obtain ⟨s, name, rfl⟩ := Grammar.settleFails settled
    refine .inr ⟨s, name, ?_⟩
    rw [buildEq, looked]
    simp only [bind, Except.bind, settled]

def comparisons : Draft :=
  .ofCalls [.declarePrecedence .nonAssoc ["LT"], .declare "e" ["e", "LT", "e"], .declare "e" ["NUM"]]

theorem comparisonsDecided :
    ∃ g, comparisons.build = .ok g ∧ build g {} = .error (.nonAssociative 4 "LT") ∧
      ∃ a, build g ⟨true, false⟩ = .ok a := by
  obtain ⟨g, finished, refused⟩ := okOfAny (x := comparisons.build)
    (f := fun g => decide (build g {} = .error (.nonAssociative 4 "LT"))) (by decide +kernel)
  exact ⟨g, finished, of_decide_eq_true refused, (buildDecided ⟨_, finished⟩ ⟨true, false⟩).2 (.inl rfl)⟩

end Automaton
end ForkingLR
