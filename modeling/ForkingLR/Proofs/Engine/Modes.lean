import ForkingLR.Proofs.Engine.Lenience

/-! One engine in its two modes. A run for the first result takes the steps of a run for all of them
and stops early. Nothing is accepted before the end marker, so it can only stop in the last round.
Only the last stack recovers, so the stacks of a run bear a mark all together or not at all. -/
namespace ForkingLR

namespace Round
variable {V : Type} {e e' : Engine V} {m : Moment V} {r : Round V}

theorem Keeps.imp {P P' Q Q' : Stack V → Prop} {A A' : Accepted V → Prop} {F : Fault → Prop}
    (h : r.Keeps e m P Q A F) (table : e'.automaton = e.automaton) (facing : ∀ s, P s → P' s)
    (past : ∀ s, Q s → Q' s) (taken : ∀ x, A x → A' x) : r.Keeps e' m P' Q' A' F := by
  refine ⟨?_, fun s inside => facing s (h.waiting s inside), fun s inside => past s (h.moved s inside),
    fun x inside => taken x (h.accepted x inside), h.fault⟩
  intro s held
  rw [table]
  exact (h.hand s held).imp_left (facing s)

end Round

structure Automaton.Clean {V : Type} (a : Automaton) (s : Stack V) : Prop where
  reading : s.recovery.errorMode = false
  unsettled : s.recovery.recovered = []
  spelled : ∃ word, a.Spells s.frames word ∧ .error ∉ word

namespace Engine
variable {V : Type} [SemanticValue V] {e : Engine V} {m : Moment V} {r : Round V}

def Clean (e : Engine V) (s : Stack V) : Prop := e.automaton.Clean s

def Passes (e : Engine V) (x : Symbol) (s : Stack V) : Prop :=
  if x = .error then e.Marked s else e.Clean s

omit [SemanticValue V] in
theorem cleanSpelled {s : Stack V} (h : e.Clean s) : e.Spelled s := by
  obtain ⟨word, spells, _⟩ := h.spelled
  exact ⟨word, spells⟩

omit [SemanticValue V] in
theorem passesSpelled {x : Symbol} {s : Stack V} (h : e.Passes x s) : e.Spelled s := by
  unfold Passes at h
  split at h
  · exact h.spelled
  · exact cleanSpelled h

theorem cleanReduce (trimmed : e.automaton.Trimmed) {s after : Stack V} {id : Nat} {x : Symbol}
    (h : e.Clean s) (listed : .reduce id ∈ e.automaton.actions s.state x)
    (reduced : e.reduce s id = .ok after) : e.Clean after := by
  obtain ⟨word, spells, none⟩ := h.spelled
  obtain ⟨p, known, under, rfl, spells', recovery⟩ := reduceSpelled trimmed spells listed reduced
  rw [List.mem_append, List.mem_reverse, not_or] at none
  have same : after.recovery = s.recovery := by
    rw [recovery, List.count_eq_zero.2 none.1]
    rfl
  refine ⟨same ▸ h.reading, same ▸ h.unsettled, _, spells', ?_⟩
  rw [List.mem_cons, not_or]
  refine ⟨?_, none.2⟩
  intro error
  have nonterminal := trimmed.wellFormed.lhsNonterminal p known
  rw [← error] at nonterminal
  contradiction

theorem cleanPreserved (trimmed : e.automaton.Trimmed)
    (made : e.reducers.length = e.automaton.grammar.size)
    (known : e.automaton.terminal? m.token.kind = some m.terminal) :
    Round.Preserves (e.withRecovery false) m e.Clean (e.Passes m.terminal) (fun x => x.errors = [])
      (fun _ => False) where
  fork := fun _ _ h => ⟨h.reading, h.unsettled, h.spelled⟩
  shift := by
    intro s target h listed
    obtain ⟨word, spells, none⟩ := h.spelled
    have pushed : e.automaton.Spells (.push target (m.token.value.getD default) s.frames) (m.terminal :: word) :=
      spells.push (trimmed.shiftMoves listed)
    unfold Passes
    split
    · rename_i error
      exact ⟨_, pushed, .inl (error ▸ List.mem_cons_self)⟩
    · rename_i ordinary
      refine ⟨rfl, h.unsettled, _, pushed, ?_⟩
      rw [List.mem_cons, not_or]
      exact ⟨Ne.symm ordinary, none⟩
  reduce := fun s id after h listed reduced =>
    cleanReduce (e := e.withRecovery false) (s := s.countReduction) trimmed
      ⟨h.reading, h.unsettled, h.spelled⟩ listed reduced
  fails := fun s id f h =>
    (spellsPreserved (e := e.withRecovery false) trimmed made known).fails s id f (cleanSpelled h)
  accept := fun s h _ => h.unsettled
  goto := fun s target h =>
    (spellsPreserved (e := e.withRecovery false) trimmed made known).goto s target (cleanSpelled h)
  skip := by
    intro s h skipping
    rw [h.reading] at skipping
    contradiction
  recover := by
    intro s after _ able
    cases able

theorem keepsAlike (trimmed : e.automaton.Trimmed) (made : e.reducers.length = e.automaton.grammar.size)
    (known : e.automaton.terminal? m.token.kind = some m.terminal)
    (h : r.Keeps e m e.Clean (e.Passes m.terminal) (fun x => x.errors = []) (fun _ => False)) :
    (r.run e m).Keeps e m e.Clean (e.Passes m.terminal) (fun x => x.errors = []) (fun _ => False) ∨
      (r.run e m).Keeps e m e.Marked e.Marked (fun x => x.errors ≠ []) (fun _ => False) := by
  have strict := Round.keepsRun (cleanPreserved trimmed made known) (h.imp rfl (fun _ => id) (fun _ => id) fun _ => id)
  cases able : e.options.errorRecovery with
  | false =>
    have same : e.withRecovery false = e := by simp [withRecovery, ← able]
    rw [same] at strict
    exact .inl strict
  | true =>
    have same : e.withRecovery true = e := by simp [withRecovery, ← able]
    have spelled : r.Keeps (e.withRecovery true) m e.Spelled e.Spelled (fun _ => True) (fun _ => False) :=
      h.imp rfl (fun _ => cleanSpelled) (fun _ => passesSpelled) (fun _ _ => trivial)
    rcases Round.runSplits trimmed made known spelled with alike | ⟨_, marked⟩
    · rw [same] at alike
      rw [alike]
      exact .inl (strict.imp rfl (fun _ => id) (fun _ => id) fun _ => id)
    · rw [same] at marked
      exact .inr marked

def Uniform (e : Engine V) (r : Round V) : Prop :=
  Poised e.Clean (fun _ => False) r ∨ Poised e.Marked (fun _ => False) r

omit [SemanticValue V] in
theorem uniformInitial (e : Engine V) : e.Uniform Round.initial := by
  refine .inl ⟨rfl, ?_, by simp [Round.initial], rfl⟩
  intro s first
  simp only [Round.initial, Queue.toListOfList, List.mem_singleton] at first
  rw [first]
  exact ⟨rfl, rfl, [], .bottom, List.not_mem_nil⟩

structure Rounded (e : Engine V) (m : Moment V) (r : Round V) : Prop where
  sane : r.fault = none
  last : r.accepted.toList ≠ [] → m.terminal = .endOfInput
  stays : r.accepted.toList = [] → e.Uniform r
  alike : (∀ x ∈ r.accepted.toList, x.errors = []) ∨ ∀ x ∈ r.accepted.toList, x.errors ≠ []

theorem Uniform.round (trimmed : e.automaton.Trimmed)
    (made : e.reducers.length = e.automaton.grammar.size)
    (known : e.automaton.terminal? m.token.kind = some m.terminal) (h : e.Uniform r) :
    e.Rounded m ((r.openToken e m).run e m) := by
  have spelled : Poised e.Spelled (fun _ => False) r := by
    rcases h with clean | marked
    · exact ⟨clean.hand, fun s inside => cleanSpelled (clean.moved s inside), clean.accepted, clean.fault⟩
    · exact ⟨marked.hand, fun s inside => (marked.moved s inside).spelled, marked.accepted, marked.fault⟩
  have atEnd : Round.Preserves e m e.Spelled e.Spelled (fun _ => m.terminal = .endOfInput) (fun _ => False) := {
    spellsPreserved trimmed made known with
    accept := by
      intro s _ listed
      cases trimmed.offers listed with
      | accept last _ => exact last }
  have ran := Round.keepsRun atEnd
    ((spelled.opens fun _ => id).imp rfl (fun _ => id) (fun _ => id) fun _ => False.elim)
  have marks : ((r.openToken e m).run e m).Keeps e m e.Clean (e.Passes m.terminal) (fun x => x.errors = [])
        (fun _ => False) ∨
      ((r.openToken e m).run e m).Keeps e m e.Marked e.Marked (fun x => x.errors ≠ []) (fun _ => False) := by
    rcases h with clean | marked
    · refine keepsAlike trimmed made known ?_
      refine (clean.opens fun _ h => ⟨h.reading, h.unsettled, h.spelled⟩).imp rfl (fun _ => id) (fun _ => id) ?_
      exact fun _ => False.elim
    · refine .inr (Round.keepsRun (markedPreserved trimmed made known) ?_)
      exact (marked.opens fun _ => id).imp rfl (fun _ => id) (fun _ => id) fun _ => False.elim
  have done := Round.runDone e m (r.openToken e m)
  generalize (r.openToken e m).run e m = final at ran marks done
  have sane : final.fault = none := Option.eq_none_iff_forall_ne_some.2 ran.fault
  have poised {P : Stack V → Prop} (moved : ∀ s ∈ final.moved.toList, P s) (none : final.accepted.toList = []) :
      Poised P (fun _ => False) final := ⟨handOfDone done sane, moved, by simp [none], sane⟩
  refine ⟨sane, ?_, ?_, marks.imp Round.Keeps.accepted Round.Keeps.accepted⟩
  · intro some
    obtain ⟨x, rest, shape⟩ := List.exists_cons_of_ne_nil some
    exact ran.accepted x (by simp [shape])
  · intro none
    rcases marks with clean | marked
    · by_cases error : m.terminal = .error
      · exact .inr (poised (fun s inside => by simpa [Passes, error] using clean.moved s inside) none)
      · exact .inl (poised (fun s inside => by simpa [Passes, error] using clean.moved s inside) none)
    · exact .inr (poised marked.moved none)

omit [SemanticValue V] in
theorem Uniform.closes (h : e.Uniform r) : e.Uniform (r.closeToken e) :=
  h.imp Poised.closes Poised.closes

omit [SemanticValue V] in
theorem Uniform.untaken (h : e.Uniform r) : r.accepted.isEmpty = true := by
  refine (Queue.isEmptyIff _).2 (List.eq_nil_iff_forall_not_mem.2 ?_)
  rcases h with clean | marked
  · exact clean.accepted
  · exact marked.accepted

def inMode (e : Engine V) (mode : AcceptMode) : Engine V := { e with mode }

omit [SemanticValue V] in
theorem recoveryPointInMode (e : Engine V) (mode : AcceptMode) (frames : Frames V) :
    (e.inMode mode).recoveryPoint? frames = e.recoveryPoint? frames := by
  induction frames with
  | bottom => rfl
  | push state value below ih =>
    unfold recoveryPoint?
    rw [ih]
    rfl

theorem recoverInMode (e : Engine V) (m : Moment V) (mode : AcceptMode) (s : Stack V) :
    (e.inMode mode).recover? m s = e.recover? m s := by
  unfold recover?
  rw [recoveryPointInMode]

theorem stepInMode (e : Engine V) (m : Moment V) (r : Round V) (mode : AcceptMode) :
    r.step (e.inMode mode) m = r.step e m := by
  unfold Round.step
  split
  · unfold Round.starve
    rw [recoverInMode]
    rfl
  all_goals rfl

theorem runOutlasts (e : Engine V) (m : Moment V) (r : Round V) :
    r.run (e.inMode .all) m = (r.run (e.inMode .first) m).run (e.inMode .all) m := by
  induction r using Round.run.induct (e.inMode .first) m with
  | case1 r done => rw [Round.runOfDone done]
  | case2 r working ih =>
    simp only [Bool.not_eq_true] at working
    have working' : r.isDone (e.inMode .all) = false := by
      simp only [Round.isDone, inMode, Bool.or_eq_false_iff, Bool.and_eq_false_imp] at working ⊢
      refine ⟨working.1, fun idle => ?_⟩
      simpa using (working.2 idle).1
    rw [stepInMode] at ih
    rw [Round.runStep working, Round.runStep working', stepInMode, stepInMode]
    exact ih

omit [SemanticValue V] in
theorem doneInBoth (done : r.isDone (e.inMode .first) = true) (none : r.accepted.isEmpty = true) :
    r.isDone (e.inMode .all) = true := by
  simp only [Round.isDone, inMode, none] at done ⊢
  simpa using done

/-- The two modes reject for one reason, or the first mode finds the beginning of all there is, with
errors everywhere or nowhere. -/
inductive Agree : Except (Rejection V) (List (Accepted V)) → Except (Rejection V) (List (Accepted V)) → Prop
  | rejected (reason : Rejection V) : Agree (.error reason) (.error reason)
  | accepted {found all : List (Accepted V)} (some : found ≠ []) (begins : found <+: all)
      (alike : (∀ x ∈ all, x.errors = []) ∨ ∀ x ∈ all, x.errors ≠ []) : Agree (.ok found) (.ok all)

theorem afterTaken (mode : AcceptMode) (seen : List (Token V)) (sane : r.fault = none)
    (some : r.accepted.toList ≠ []) : ((e.inMode mode).after seen m [] r).result = .ok r.accepted.toList := by
  have taken : r.accepted.isEmpty = false := by simpa [← Bool.not_eq_true, Queue.isEmptyIff] using some
  cases mode with
  | first => simp [after, sane, inMode, taken]
  | all =>
    have collecting : ((e.inMode .all).mode == AcceptMode.first) = false := rfl
    simp only [after, sane, collecting, Bool.false_and, Bool.false_eq_true, if_false]
    split
    · simp [exhausted, taken]
    · simp [runFrom, exhausted, taken]

theorem agreeAfter {seen rest : List (Token V)} (ordinary : ∀ t ∈ (m.token :: rest).dropLast, t.isEnd = false)
    (trimmed : e.automaton.Trimmed) (made : e.reducers.length = e.automaton.grammar.size)
    (known : e.automaton.terminal? m.token.kind = some m.terminal) (h : e.Uniform r)
    (later : ∀ {r : Round V}, e.Uniform r →
      Agree ((e.inMode .first).runFrom (seen ++ [m.token]) r rest).result
        ((e.inMode .all).runFrom (seen ++ [m.token]) r rest).result) :
    Agree ((e.inMode .first).after seen m rest ((r.openToken e m).run (e.inMode .first) m)).result
      ((e.inMode .all).after seen m rest ((r.openToken e m).run (e.inMode .all) m)).result := by
  have rounded (mode : AcceptMode) : e.Rounded m ((r.openToken e m).run (e.inMode mode) m) := by
    have here := Uniform.round (e := e.inMode mode) trimmed made known h
    exact ⟨here.sane, here.last, here.stays, here.alike⟩
  have early := rounded .first
  have late := rounded .all
  have grows := (Round.remembersRun (e.inMode .all) m ((r.openToken e m).run (e.inMode .first) m)).accepted
  have done := Round.runDone (e.inMode .first) m (r.openToken e m)
  have outlasts := runOutlasts e m (r.openToken e m)
  rw [← outlasts] at grows
  clear rounded
  generalize (r.openToken e m).run (e.inMode .first) m = found at early done outlasts grows
  generalize (r.openToken e m).run (e.inMode .all) m = all at late outlasts grows
  by_cases nothing : found.accepted.toList = []
  · have none := (Queue.isEmptyIff _).2 nothing
    rw [Round.runOfDone (doneInBoth done none)] at outlasts
    subst outlasts
    simp only [after, early.sane, none, exhausted, inMode, Bool.not_true, Bool.and_false, Bool.false_eq_true,
      if_false, if_true]
    split
    · exact .rejected _
    · exact later (early.stays nothing).closes
  · have more : all.accepted.toList ≠ [] := fun empty => nothing (List.prefix_nil.1 (empty ▸ grows))
    -- Acceptance means the end marker, and nothing comes after that.
    have ended : m.token.isEnd = true := by
      have kind := known
      rw [early.last nothing] at kind
      simp [Token.isEnd, Automaton.terminalEnd kind]
    have last : rest = [] := by
      cases rest with
      | nil => rfl
      | cons next rest => simp [ordinary m.token (by simp)] at ended
    subst last
    rw [afterTaken .first seen early.sane nothing, afterTaken .all seen late.sane more]
    exact .accepted nothing grows late.alike

theorem agreeFrom (trimmed : e.automaton.Trimmed) (made : e.reducers.length = e.automaton.grammar.size) :
    ∀ {rest seen : List (Token V)} {r : Round V}, (∀ t ∈ rest.dropLast, t.isEnd = false) →
      seen ++ rest ≠ [] → e.Uniform r →
      Agree ((e.inMode .first).runFrom seen r rest).result ((e.inMode .all).runFrom seen r rest).result := by
  intro rest
  induction rest with
  | nil =>
    intro seen r _ some h
    obtain ⟨front, last, rfl⟩ := (List.eq_nil_or_concat seen).resolve_left (by simpa using some)
    simp only [runFrom, List.concat_eq_append, List.getLast?_concat, exhausted, h.untaken, if_true]
    exact .rejected _
  | cons token rest ih =>
    intro seen r ordinary _ h
    cases known : e.automaton.terminal? token.kind with
    | none =>
      rw [runFromUnknown (e := e.inMode .first) known, runFromUnknown (e := e.inMode .all) known]
      exact .rejected _
    | some x =>
      rw [runFromKnown (e := e.inMode .first) known, runFromKnown (e := e.inMode .all) known]
      have ordinary' : ∀ t ∈ rest.dropLast, t.isEnd = false := by
        intro t inside
        cases rest with
        | nil => cases inside
        | cons next rest => exact ordinary t (List.mem_cons_of_mem _ inside)
      exact agreeAfter (m := ⟨token, x, seen.length⟩) ordinary trimmed made known h
        (ih ordinary' (by simp))

theorem runsAgree (trimmed : e.automaton.Trimmed) (made : e.reducers.length = e.automaton.grammar.size)
    {tokens : List (Token V)} (ordinary : ∀ t ∈ tokens.dropLast, t.isEnd = false) :
    Agree ((e.inMode .first).run tokens).result ((e.inMode .all).run tokens).result := by
  obtain ⟨last, _, closed⟩ := closeInputEnd tokens
  refine agreeFrom trimmed made ?_ (by simp [closed]) e.uniformInitial
  rw [closed, List.dropLast_concat]
  exact remainingOrdinary ordinary

end Engine

namespace Parser
variable {V : Type}

inductive Concurs : Except (ParseError V V) V → Except (ParseError V (List V)) (List V) → Prop
  | rejected (reason : Rejection V) : Concurs (.error (.rejected reason)) (.error (.rejected reason))
  | clean (v : V) (vs : List V) : Concurs (.ok v) (.ok (v :: vs))
  | handled (errors more : List (RecoveredError V)) (v : V) (vs : List V) :
      Concurs (.error (.handled errors v)) (.error (.handled (errors ++ more) (v :: vs)))

theorem Concurs.ofRuns {one all : Outcome V} (h : Engine.Agree one.result all.result) :
    Concurs (conclude firstMatch one) (conclude allMatches all) := by
  unfold conclude
  generalize one.result = found at h
  generalize all.result = listed at h
  cases h with
  | rejected reason => exact .rejected reason
  | @accepted found all some begins alike =>
    obtain ⟨x, rest, rfl⟩ := List.exists_cons_of_ne_nil some
    obtain ⟨more, rfl⟩ := begins
    rcases alike with none | errors
    · have first := none x (by simp)
      have empty : (x :: (rest ++ more)).flatMap Accepted.errors = [] := List.flatMap_eq_nil_iff.2 none
      simp only [firstMatch, allMatches, first, List.cons_append, empty, List.isEmpty_nil, if_true, List.map_cons]
      exact .clean _ _
    · have first := errors x (by simp)
      have some : x.errors ++ (rest ++ more).flatMap Accepted.errors ≠ [] := by simp [first]
      simp only [firstMatch, allMatches, List.cons_append, List.flatMap_cons, List.map_cons,
        List.isEmpty_eq_false_iff.2 first, List.isEmpty_eq_false_iff.2 some, Bool.false_eq_true, if_false]
      exact .handled _ _ _ _

theorem modesAgree [SemanticValue V] {g : Grammar} {config : TableConfig} (built : g.Built) (p : Parser V)
    (table : Automaton.build g config = .ok p.automaton) (made : p.reducers.length = g.size)
    (tokens : List (Token V)) (ordinary : ∀ t ∈ tokens.dropLast, t.isEnd = false) :
    (∀ reason, p.parse tokens = .error (.rejected reason) ↔ p.parseAll tokens = .error (.rejected reason)) ∧
    (∀ v, p.parse tokens = .ok v ↔ ∃ vs, p.parseAll tokens = .ok vs ∧ vs.head? = some v) ∧
    (∀ errors v, p.parse tokens = .error (.handled errors v) →
      ∃ errors' vs, p.parseAll tokens = .error (.handled errors' vs) ∧ vs.head? = some v ∧ errors <+: errors') ∧
    ∀ errors' vs, p.parseAll tokens = .error (.handled errors' vs) →
      ∃ errors v, p.parse tokens = .error (.handled errors v) ∧ vs.head? = some v ∧ errors <+: errors' := by
  have trimmed := Automaton.trimmedBuild built table
  obtain rfl : p.automaton.grammar = g := (Automaton.buildSource table).1
  have concurs : Concurs (p.parse tokens) (p.parseAll tokens) :=
    .ofRuns (Engine.runsAgree (e := p.engine .all) trimmed made ordinary)
  generalize p.parse tokens = one at concurs
  generalize p.parseAll tokens = all at concurs
  cases concurs with
  | rejected reason => simp
  | clean v vs => simp [eq_comm]
  | handled errors more v vs => simp [eq_comm]

theorem brokenSumModes :
    ∃ p errors errors' v vs, ParserDraft.sums.finalize {} = .ok p ∧ vs.length = 2 ∧ errors'.length = 2 ∧
      p.parse brokenSum = .error (.handled errors v) ∧ p.parseAll brokenSum = .error (.handled errors' vs) ∧
      vs.head? = some v ∧ errors <+: errors' := by
  have ran : ((ParserDraft.sums.finalize {}).toOption.any fun p =>
      match p.parseAll brokenSum with
      | .error (.handled errors vs) => vs.length == 2 && errors.length == 2
      | _ => false) = true := by decide +kernel
  obtain ⟨p, finished, ran⟩ := okOfAny ran
  obtain ⟨g, a, built, table, rfl⟩ := ParserDraft.finalizeSource finished
  obtain ⟨_, _, _, handled⟩ := modesAgree ⟨_, built⟩ (ParserDraft.sums.toParser g a) table
    (ParserDraft.sums.reducersLength g) brokenSum (by decide)
  split at ran
  · rename_i errors' vs listed
    rw [Bool.and_eq_true, beq_iff_eq, beq_iff_eq] at ran
    obtain ⟨errors, v, found, agrees⟩ := handled errors' vs listed
    exact ⟨_, errors, errors', v, vs, finished, ran.1, ran.2, found, listed, agrees⟩
  · cases ran

end Parser
end ForkingLR
