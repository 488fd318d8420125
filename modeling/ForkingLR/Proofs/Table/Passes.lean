import ForkingLR.Proofs.Automaton

/-! The passes over a table, row by row. Pruning and precedence each decide a row from that row alone,
so what a pass makes of a state is said by what it makes of one row. -/
namespace ForkingLR

def pruneRow (onlyConflicts : Bool) (allowed : Prop) [Decidable allowed] (row : List Action)
    (production : Nat) : List Action :=
  if allowed then row
  else if onlyConflicts && !decide (1 < row.length) then row
  else row.filter (· ≠ .reduce production)

def settleRow? (ofTerminal : Option Precedence) (ofProduction : Nat → Option Precedence)
    (row : List Action) : Option (List Action) :=
  match row.mapM (Contender.of? ofTerminal ofProduction) with
  | none => some row
  | some [] => some row
  | some (first :: rest) => (rest.foldlM Contender.duel first).map fun winner => [winner.action]

namespace State

def Tidy (s : State) : Prop := ∀ x, s.rows.get? x ≠ some []

theorem tidySetRow {s : State} (tidy : s.Tidy) (x : Symbol) (row : List Action) : (s.setRow x row).Tidy := by
  intro y
  unfold setRow
  split
  · rw [SortedMap.getErase]
    split
    · simp
    · exact tidy y
  · rename_i some
    rw [SortedMap.getInsert]
    split
    · intro same
      rw [Option.some.inj same] at some
      contradiction
    · exact tidy y

theorem tidyFold {α : Type} {f : State → α → State} (step : ∀ s a, Tidy s → Tidy (f s a)) (l : List α)
    {s : State} (tidy : s.Tidy) : (l.foldl f s).Tidy := by
  induction l generalizing s with
  | nil => exact tidy
  | cons a l ih => exact ih (step s a tidy)

theorem entryIff {s : State} {x : Symbol} {row : List Action} (some : row ≠ []) :
    (x, row) ∈ s.rows.entries ↔ s.actionsOn x = row := by
  constructor
  · exact actionsOnEntry
  · intro same
    rw [actionsOn, SortedMap.getDOfGet] at same
    cases found : s.rows.get? x with
    | none =>
      rw [found] at same
      exact absurd same.symm some
    | some row' =>
      rw [found] at same
      exact SortedMap.getSomeIff.1 (same ▸ found)

theorem Tidy.entry {s : State} (tidy : s.Tidy) {e : Symbol × List Action} (h : e ∈ s.rows.entries) :
    e.2 ≠ [] := by
  intro empty
  exact tidy e.1 (empty ▸ SortedMap.getSomeIff.2 h)

theorem Tidy.rowsEq {s t : State} (tidy : s.Tidy) (tidy' : t.Tidy) (same : ∀ x, s.actionsOn x = t.actionsOn x) :
    s.rows = t.rows := by
  refine SortedMap.extAnswers fun x => Option.ext fun row => ?_
  rw [SortedMap.getSomeIff, SortedMap.getSomeIff]
  constructor
  · intro listed
    have some := tidy.entry listed
    exact (entryIff some).2 (same x ▸ (entryIff some).1 listed)
  · intro listed
    have some := tidy'.entry listed
    exact (entryIff some).2 ((same x).symm ▸ (entryIff some).1 listed)

section
variable (onlyConflicts : Bool)

theorem pruneOneActions (lookahead : SortedSet Symbol) (production : Nat) (s : State) (x y : Symbol) :
    (pruneOne onlyConflicts lookahead production s x).actionsOn y =
      if y = x then pruneRow onlyConflicts (y ∈ lookahead) (s.actionsOn y) production
      else s.actionsOn y := by
  unfold pruneOne pruneRow conflictOn
  by_cases same : y = x
  · subst same
    rw [if_pos rfl]
    split
    · rfl
    · split
      · rfl
      · rw [removeActionActions, if_pos rfl]
  · rw [if_neg same]
    split
    · rfl
    · split
      · rfl
      · rw [removeActionActions, if_neg same]

theorem pruneTerminalActions (lookahead : SortedSet Symbol) (production : Nat) {terminals : List Symbol}
    (distinct : terminals.Nodup) (s : State) (y : Symbol) :
    (terminals.foldl (pruneOne onlyConflicts lookahead production) s).actionsOn y =
      if y ∈ terminals then pruneRow onlyConflicts (y ∈ lookahead) (s.actionsOn y) production
      else s.actionsOn y := by
  induction terminals generalizing s with
  | nil => simp
  | cons x terminals ih =>
    obtain ⟨new, distinct⟩ := List.nodup_cons.1 distinct
    rw [List.foldl_cons, ih distinct, pruneOneActions]
    by_cases same : y = x
    · subst same
      simp [new]
    · simp [same]

theorem pruneActions (lookahead : Nat → SortedSet Symbol) {terminals : List Symbol}
    (distinct : terminals.Nodup) (s : State) (y : Symbol) :
    (s.prune onlyConflicts terminals lookahead).actionsOn y =
      if y ∈ terminals then
        s.reductions.foldl (fun row id => pruneRow onlyConflicts (y ∈ lookahead id) row id) (s.actionsOn y)
      else s.actionsOn y := by
  unfold prune
  generalize s.reductions = productions
  induction productions generalizing s with
  | nil => simp
  | cons id productions ih =>
    rw [List.foldl_cons, ih, pruneTerminalActions onlyConflicts _ _ distinct]
    by_cases inside : y ∈ terminals <;> simp [inside]

theorem pruneRowFold {allowed : Nat → Prop} [DecidablePred allowed] {ids : List Nat} {row : List Action}
    {action : Action} : action ∈ ids.foldl (fun row id => pruneRow false (allowed id) row id) row ↔
      action ∈ row ∧ ∀ id ∈ ids, action = .reduce id → allowed id := by
  induction ids generalizing row with
  | nil => simp
  | cons id ids ih =>
    rw [List.foldl_cons, ih, List.forall_mem_cons, pruneRow]
    by_cases fine : allowed id
    · simp [fine]
    · simp [fine, and_assoc]

theorem tidyPrune (lookahead : Nat → SortedSet Symbol) (terminals : List Symbol) {s : State} (tidy : s.Tidy) :
    (s.prune onlyConflicts terminals lookahead).Tidy := by
  refine tidyFold (fun s id tidy => tidyFold (fun s x tidy => ?_) terminals tidy) _ tidy
  unfold pruneOne
  split
  · exact tidy
  · split
    · exact tidy
    · exact tidySetRow tidy _ _

end

theorem memReductions {s : State} {id : Nat} : id ∈ s.reductions ↔ ∃ x, .reduce id ∈ s.actionsOn x := by
  rw [reductions, ← SortedSet.memIff, SortedSet.memOfList]
  simp only [List.mem_flatMap, List.mem_filterMap]
  constructor
  · rintro ⟨⟨x, row⟩, listed, action, inside, reduces⟩
    refine ⟨x, ?_⟩
    rw [actionsOnEntry listed]
    cases action with
    | reduce id' =>
      obtain rfl := Option.some.inj reduces
      exact inside
    | shift => cases reduces
    | goto => cases reduces
    | accept => cases reduces
  · rintro ⟨x, inside⟩
    exact ⟨(x, s.actionsOn x), (entryIff (List.ne_nil_of_mem inside)).2 rfl, _, inside, rfl⟩

theorem memContested {s : State} {e : Symbol × List Action} :
    e ∈ s.contested ↔ isTerminal e.1 = true ∧ 1 < e.2.length ∧ s.actionsOn e.1 = e.2 := by
  simp only [contested, conflicts, List.mem_filter, decide_eq_true_eq]
  constructor
  · rintro ⟨⟨listed, several⟩, terminal⟩
    exact ⟨terminal, several, actionsOnEntry listed⟩
  · rintro ⟨terminal, several, same⟩
    have some : e.2 ≠ [] := List.ne_nil_of_length_pos (Nat.lt_of_succ_lt several)
    exact ⟨⟨(entryIff some).2 same, several⟩, terminal⟩

section
variable (table : PrecedenceTable) (ofProduction : Nat → Option Precedence)

theorem resolveRowCases (s : State) (e : Symbol × List Action) :
    s.resolveRow table ofProduction e = .ok s ∧ settleRow? (table.ofTerminal? e.1) ofProduction e.2 = some e.2 ∨
      (∃ action, s.resolveRow table ofProduction e = .ok (s.setRow e.1 [action]) ∧
        settleRow? (table.ofTerminal? e.1) ofProduction e.2 = some [action]) ∨
      s.resolveRow table ofProduction e = .error e.1 ∧
        settleRow? (table.ofTerminal? e.1) ofProduction e.2 = none := by
  unfold resolveRow settleRow?
  rcases e.2.mapM (Contender.of? (table.ofTerminal? e.1) ofProduction) with _ | ⟨_ | ⟨first, rest⟩⟩
  · exact .inl ⟨rfl, rfl⟩
  · exact .inl ⟨rfl, rfl⟩
  · dsimp only
    cases rest.foldlM Contender.duel first with
    | none => exact .inr (.inr ⟨rfl, rfl⟩)
    | some winner => exact .inr (.inl ⟨winner.action, rfl, rfl⟩)

theorem resolveRowSource {s t : State} {e : Symbol × List Action} (own : s.actionsOn e.1 = e.2)
    (h : s.resolveRow table ofProduction e = .ok t) :
    settleRow? (table.ofTerminal? e.1) ofProduction e.2 = some (t.actionsOn e.1) ∧
      (∀ x, x ≠ e.1 → t.actionsOn x = s.actionsOn x) ∧ (s.Tidy → t.Tidy) := by
  rcases resolveRowCases table ofProduction s e with ⟨answer, settled⟩ | ⟨action, answer, settled⟩ | ⟨answer, _⟩
  · cases answer.symm.trans h
    exact ⟨own ▸ settled, fun _ _ => rfl, id⟩
  · cases answer.symm.trans h
    refine ⟨?_, ?_, fun tidy => tidySetRow tidy _ _⟩
    · rw [settled, setRowActions, if_pos rfl]
    · intro x other
      rw [setRowActions, if_neg other]
  · cases answer.symm.trans h

theorem resolveRowFails {s : State} {e : Symbol × List Action} {x : Symbol}
    (h : s.resolveRow table ofProduction e = .error x) :
    x = e.1 ∧ settleRow? (table.ofTerminal? e.1) ofProduction e.2 = none := by
  rcases resolveRowCases table ofProduction s e with ⟨answer, _⟩ | ⟨action, answer, _⟩ | ⟨answer, open'⟩
  · cases answer.symm.trans h
  · cases answer.symm.trans h
  · cases answer.symm.trans h
    exact ⟨rfl, open'⟩

theorem resolveRowsSource {rows : List (Symbol × List Action)} (distinct : (rows.map Prod.fst).Nodup) :
    ∀ {s t : State}, (∀ e ∈ rows, s.actionsOn e.1 = e.2) →
      rows.foldlM (resolveRow table ofProduction) s = .ok t →
      (∀ e ∈ rows, settleRow? (table.ofTerminal? e.1) ofProduction e.2 = some (t.actionsOn e.1)) ∧
        (∀ x, x ∉ rows.map Prod.fst → t.actionsOn x = s.actionsOn x) ∧ (s.Tidy → t.Tidy) := by
  induction rows with
  | nil =>
    intro s t _ h
    cases h
    exact ⟨nofun, fun _ _ => rfl, id⟩
  | cons e rows ih =>
    intro s t own h
    obtain ⟨new, distinct⟩ := List.nodup_cons.1 distinct
    rw [List.foldlM_cons] at h
    cases first : s.resolveRow table ofProduction e with
    | error x =>
      rw [first] at h
      cases h
    | ok mid =>
      rw [first] at h
      obtain ⟨settled, alone, kept⟩ := resolveRowSource table ofProduction (own e List.mem_cons_self) first
      have own' : ∀ e' ∈ rows, mid.actionsOn e'.1 = e'.2 := by
        intro e' inside
        have other : e'.1 ≠ e.1 := fun same => new (same ▸ List.mem_map_of_mem inside)
        rw [alone _ other]
        exact own e' (List.mem_cons_of_mem _ inside)
      obtain ⟨others, rest, tidy⟩ := ih distinct own' h
      refine ⟨?_, ?_, fun before => tidy (kept before)⟩
      · intro e' inside
        rcases List.mem_cons.1 inside with rfl | inside
        · rw [settled, rest _ new]
        · exact others e' inside
      · intro x outside
        rw [List.map_cons, List.mem_cons, not_or] at outside
        rw [rest x outside.2, alone x outside.1]

theorem resolveRowsFail {rows : List (Symbol × List Action)} :
    ∀ {s : State} {x : Symbol}, rows.foldlM (resolveRow table ofProduction) s = .error x →
      ∃ e ∈ rows, x = e.1 ∧ settleRow? (table.ofTerminal? e.1) ofProduction e.2 = none := by
  induction rows with
  | nil =>
    intro s x h
    cases h
  | cons e rows ih =>
    intro s x h
    rw [List.foldlM_cons] at h
    cases first : s.resolveRow table ofProduction e with
    | error y =>
      rw [first] at h
      cases h
      exact ⟨e, List.mem_cons_self, resolveRowFails table ofProduction first⟩
    | ok mid =>
      rw [first] at h
      obtain ⟨e', inside, fails⟩ := ih h
      exact ⟨e', List.mem_cons_of_mem _ inside, fails⟩

structure Settled (s t : State) : Prop where
  contested : ∀ x, isTerminal x = true → 1 < (s.actionsOn x).length →
    settleRow? (table.ofTerminal? x) ofProduction (s.actionsOn x) = some (t.actionsOn x)
  others : ∀ x, ¬ (isTerminal x = true ∧ 1 < (s.actionsOn x).length) → t.actionsOn x = s.actionsOn x

theorem resolveSource {s t : State} (h : s.resolve table ofProduction = .ok t) :
    Settled table ofProduction s t ∧ (s.Tidy → t.Tidy) := by
  have distinct : (s.contested.map Prod.fst).Nodup := by
    have keys : s.rows.keys.Nodup := by
      refine List.pairwise_map.2 (s.rows.sorted.imp ?_)
      intro a b less same
      simp [same] at less
    exact keys.sublist ((List.filter_sublist.trans List.filter_sublist).map _)
  have own : ∀ e ∈ s.contested, s.actionsOn e.1 = e.2 := fun e inside => (memContested.1 inside).2.2
  obtain ⟨settled, rest, tidy⟩ := resolveRowsSource table ofProduction distinct own h
  refine ⟨⟨?_, ?_⟩, tidy⟩
  · intro x terminal several
    exact settled (x, s.actionsOn x) (memContested.2 ⟨terminal, several, rfl⟩)
  · intro x calm
    refine rest x ?_
    intro inside
    obtain ⟨e, listed, rfl⟩ := List.mem_map.1 inside
    obtain ⟨terminal, several, same⟩ := memContested.1 listed
    exact calm ⟨terminal, same ▸ several⟩

theorem resolveFails {s : State} {x : Symbol} (h : s.resolve table ofProduction = .error x) :
    isTerminal x = true ∧ 1 < (s.actionsOn x).length ∧
      settleRow? (table.ofTerminal? x) ofProduction (s.actionsOn x) = none := by
  obtain ⟨e, inside, rfl, fails⟩ := resolveRowsFail table ofProduction h
  obtain ⟨terminal, several, same⟩ := memContested.1 inside
  rw [same]
  exact ⟨terminal, several, fails⟩

theorem resolveOk {s : State}
    (settles : ∀ x, isTerminal x = true → 1 < (s.actionsOn x).length →
      (settleRow? (table.ofTerminal? x) ofProduction (s.actionsOn x)).isSome = true) :
    ∃ t, s.resolve table ofProduction = .ok t := by
  cases result : s.resolve table ofProduction with
  | ok t => exact ⟨t, rfl⟩
  | error x =>
    obtain ⟨terminal, several, fails⟩ := resolveFails table ofProduction result
    have settled := settles x terminal several
    rw [fails] at settled
    cases settled

end

end State

namespace Grammar
variable {g : Grammar} {config : TableConfig}

structure Allows (g : Grammar) (config : TableConfig) (s : Nat) (x : Symbol) (action : Action) : Prop where
  offered : g.Offers s x action
  expected : config.lookahead = true → ∀ {id : Nat} {found : Lookaheads}, action = .reduce id →
    g.lookaheads g.lr0States = .ok found → x ∈ found.getD ⟨s, id⟩ ∅

theorem lookedIff (wf : g.WellFormed) (strict : config.lookahead = true → g.usesError = false)
    {states : List State} (looked : Automaton.lookaheadStates g config = .ok states) {s : Nat} {st : State}
    (placed : states[s]? = some st) {x : Symbol} {action : Action} :
    action ∈ st.actionsOn x ↔ g.Allows config s x action := by
  simp only [Automaton.lookaheadStates] at looked
  split at looked
  · rename_i wanted
    split at looked
    · rename_i found answer
      cases looked
      rw [strict wanted, pruneByLookahead, List.getElem?_mapIdx] at placed
      obtain ⟨st₀, placed₀, rfl⟩ := Option.map_eq_some_iff.1 placed
      rw [State.pruneActions _ _ (show g.terminals.Nodup from SortedSet.nodup _)]
      have offered : action ∈ st₀.actionsOn x ↔ g.Offers s x action := actionsOffered wf placed₀
      constructor
      · intro listed
        split at listed
        · rw [State.pruneRowFold] at listed
          refine ⟨offered.1 listed.1, ?_⟩
          rintro _ id found' rfl answer'
          obtain rfl := Except.ok.inj (answer.symm.trans answer')
          exact listed.2 id (State.memReductions.2 ⟨x, listed.1⟩) rfl
        · rename_i unknown
          refine ⟨offered.1 listed, ?_⟩
          rintro _ id _ rfl _
          cases offered.1 listed with
          | reduce known => exact absurd known unknown
      · intro allowed
        have listed := offered.2 allowed.offered
        split
        · rw [State.pruneRowFold]
          exact ⟨listed, fun id _ reduces => allowed.expected wanted reduces answer⟩
        · exact listed
    · cases looked
  · rename_i unwanted
    cases looked
    rw [actionsOffered wf placed]
    exact ⟨fun offered => ⟨offered, fun wanted => absurd wanted unwanted⟩, Allows.offered⟩

end Grammar

namespace Automaton
variable {a : Automaton}

theorem memConflicts {s : Nat} {x : Symbol} {row : List Action} :
    (s, x, row) ∈ a.conflicts ↔ a.actions s x = row ∧ 1 < row.length := by
  simp only [conflicts, List.mem_flatMap, List.mem_map, State.conflicts, List.mem_filter, decide_eq_true_eq]
  constructor
  · rintro ⟨⟨st, s'⟩, placed, ⟨x', row'⟩, ⟨listed, several⟩, same⟩
    cases same
    rw [actionsAt (List.mem_zipIdx_iff_getElem?.1 placed)]
    exact ⟨State.actionsOnEntry listed, several⟩
  · rintro ⟨own, several⟩
    have some : row ≠ [] := List.ne_nil_of_length_pos (Nat.lt_of_succ_lt several)
    cases placed : a.states[s]? with
    | none =>
      rw [Automaton.actions, placed] at own
      exact absurd own.symm some
    | some st =>
      rw [actionsAt placed] at own
      exact ⟨(st, s), List.mem_zipIdx_iff_getElem?.2 placed, (x, row), ⟨(State.entryIff some).2 own, several⟩, rfl⟩

end Automaton
end ForkingLR
