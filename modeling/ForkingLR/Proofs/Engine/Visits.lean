import ForkingLR.Engine.Run

/-! The rounds a run goes through. What one step keeps of the stacks in hand, waiting and past
the token, every round of every run keeps; and a run ends in the last round it visits. -/
namespace ForkingLR

variable {V : Type}

namespace Round

/-- `P` of the stacks that still face the token, `Q` of those past it, `A` of what was accepted
and `F` of the fault, if there is one. -/
structure Keeps (e : Engine V) (m : Moment V) (P Q : Stack V → Prop) (A : Accepted V → Prop)
    (F : Fault → Prop) (r : Round V) : Prop where
  hand : ∀ s, r.hand = some s → P s ∧ r.todo ⊆ e.automaton.actions s.state m.terminal
  waiting : ∀ s ∈ r.waiting.toList, P s
  moved : ∀ s ∈ r.moved.toList, Q s
  accepted : ∀ a ∈ r.accepted.toList, A a
  fault : ∀ f, r.fault = some f → F f

variable {e : Engine V} {m : Moment V} {P Q : Stack V → Prop} {A : Accepted V → Prop}
  {F : Fault → Prop}

theorem Keeps.note {r : Round V} (h : r.Keeps e m P Q A F) (event : Event) :
    (r.note e event).Keeps e m P Q A F := ⟨h.hand, h.waiting, h.moved, h.accepted, h.fault⟩

theorem Keeps.enqueue {r : Round V} (h : r.Keeps e m P Q A F) {s : Stack V} (hs : P s) :
    (r.enqueue s).Keeps e m P Q A F := by
  refine ⟨h.hand, ?_, h.moved, h.accepted, h.fault⟩
  intro t ht
  simp only [Round.enqueue, Queue.toListPush, List.mem_append, List.mem_singleton] at ht
  rcases ht with ht | rfl
  · exact h.waiting t ht
  · exact hs

theorem Keeps.moveOn {r : Round V} (h : r.Keeps e m P Q A F) {s : Stack V} (hs : Q s) :
    (r.moveOn s).Keeps e m P Q A F := by
  refine ⟨h.hand, h.waiting, ?_, h.accepted, h.fault⟩
  intro t ht
  simp only [Round.moveOn, Queue.toListPush, List.mem_append, List.mem_singleton] at ht
  rcases ht with ht | rfl
  · exact h.moved t ht
  · exact hs

variable [SemanticValue V]

theorem stepStarve {r : Round V} {s : Stack V} (held : r.hand = some s) (none : r.todo = []) :
    r.step e m = starve e m { r with hand := Option.none } s := by simp [step, held, none]

theorem stepAct {r : Round V} {s : Stack V} {action : Action} (held : r.hand = some s)
    (last : r.todo = [action]) : r.step e m = act e m { r with hand := none } s action := by
  simp [step, held, last]

theorem stepFork {r : Round V} {s : Stack V} {action other : Action} {todo : List Action}
    (held : r.hand = some s) (several : r.todo = action :: other :: todo) :
    r.step e m = forkAct e m { r with todo := other :: todo } s action := by
  simp [step, held, several]

theorem stepPick {r : Round V} {s : Stack V} {waiting : Queue (Stack V)} (idle : r.hand = none)
    (popped : r.waiting.pop? = some (s, waiting)) :
    r.step e m = { r with hand := some s, todo := e.automaton.actions s.state m.terminal, waiting } := by
  simp [step, idle, popped]

theorem stepIdle {r : Round V} (idle : r.hand = none) (nothing : r.waiting.pop? = none) :
    r.step e m = { r with todo := [], waiting := .empty } := by simp [step, idle, nothing]

def shifted (m : Moment V) (s : Stack V) (target : Nat) : Stack V :=
  { s.push target (m.token.value.getD default) with recovery := s.recovery.leaveErrorMode }

structure Preserves (e : Engine V) (m : Moment V) (P Q : Stack V → Prop) (A : Accepted V → Prop)
    (F : Fault → Prop) : Prop where
  fork : ∀ s id, P s → P (s.fork id)
  shift : ∀ s target, P s → .shift target ∈ e.automaton.actions s.state m.terminal →
    Q (shifted m s target)
  reduce : ∀ s id after, P s → .reduce id ∈ e.automaton.actions s.state m.terminal →
    e.reduce s.countReduction id = .ok after → P after
  fails : ∀ s id f, P s → .reduce id ∈ e.automaton.actions s.state m.terminal →
    e.reduce s.countReduction id = .error f → F f
  accept : ∀ s, P s → .accept ∈ e.automaton.actions s.state m.terminal →
    A ⟨s.topValue, s.recovery.recovered⟩
  goto : ∀ s target, P s → .goto target ∈ e.automaton.actions s.state m.terminal →
    F (.gotoUnderTerminal s.state m.token.kind)
  skip : ∀ s, P s → s.recovery.errorMode = true → m.terminal ≠ .endOfInput →
    Q { s with recovery := s.recovery.skip m.token }
  recover : ∀ s after, P s → e.options.errorRecovery = true →
    s.recovery.canRecoverAt m.index = true → e.recover? m s = some after → P after

theorem keepsAct (pres : Preserves e m P Q A F) {r : Round V} (h : r.Keeps e m P Q A F)
    {s : Stack V} (hs : P s) {action : Action}
    (listed : action ∈ e.automaton.actions s.state m.terminal) :
    (act e m r s action).Keeps e m P Q A F := by
  have noted := h.note (.acts s.id s.state action)
  cases action with
  | shift target => exact noted.moveOn (pres.shift s target hs listed)
  | reduce id =>
    simp only [act]
    split
    · have dropped : Keeps e m P Q A F { r.note e (.acts s.id s.state (.reduce id)) with cycled := true } :=
        ⟨noted.hand, noted.waiting, noted.moved, noted.accepted, noted.fault⟩
      exact dropped.note _
    · split
      · rename_i after ok
        exact noted.enqueue (pres.reduce s id after hs listed ok)
      · rename_i f failed
        refine ⟨noted.hand, noted.waiting, noted.moved, noted.accepted, ?_⟩
        intro f' same
        cases same
        exact pres.fails s id f hs listed failed
  | accept =>
    refine ⟨noted.hand, noted.waiting, noted.moved, ?_, noted.fault⟩
    intro a ha
    simp only [act, Queue.toListPush, List.mem_append, List.mem_singleton] at ha
    rcases ha with ha | rfl
    · exact noted.accepted a ha
    · exact pres.accept s hs listed
  | goto target =>
    refine ⟨noted.hand, noted.waiting, noted.moved, noted.accepted, ?_⟩
    intro f same
    cases same
    exact pres.goto s target hs listed

theorem keepsStarve (pres : Preserves e m P Q A F) {r : Round V} (h : r.Keeps e m P Q A F)
    {s : Stack V} (hs : P s) : (starve e m r s).Keeps e m P Q A F := by
  unfold starve
  split
  · rename_i skipping
    simp only [Bool.and_eq_true, decide_eq_true_eq] at skipping
    exact (h.note _).moveOn (pres.skip s hs skipping.1 skipping.2)
  · split
    · rename_i may
      simp only [mayRecover, Bool.and_eq_true] at may
      split
      · rename_i after found
        exact (h.note _).enqueue (pres.recover s after hs may.1.1.1.1.1 may.2 found)
      · exact h.note _
    · exact h.note _

theorem keepsForkAct (pres : Preserves e m P Q A F) {r : Round V} (h : r.Keeps e m P Q A F)
    {s : Stack V} (hs : P s) {action : Action}
    (listed : action ∈ e.automaton.actions s.state m.terminal) :
    (forkAct e m r s action).Keeps e m P Q A F := by
  unfold forkAct
  split
  · have refused : Keeps e m P Q A F { r with overflowed := true } :=
      ⟨h.hand, h.waiting, h.moved, h.accepted, h.fault⟩
    exact refused.note _
  · have numbered : Keeps e m P Q A F { r with nextId := r.nextId + 1 } :=
      ⟨h.hand, h.waiting, h.moved, h.accepted, h.fault⟩
    exact keepsAct pres (numbered.note _) (pres.fork s r.nextId hs) listed

theorem keepsStep (pres : Preserves e m P Q A F) {r : Round V} (h : r.Keeps e m P Q A F) :
    (r.step e m).Keeps e m P Q A F := by
  have idle : Keeps e m P Q A F { r with hand := none } :=
    ⟨nofun, h.waiting, h.moved, h.accepted, h.fault⟩
  unfold step
  split
  · rename_i s held none
    exact keepsStarve pres idle (h.hand s held).1
  · rename_i s action held last
    obtain ⟨hs, listed⟩ := h.hand s held
    have member : action ∈ r.todo := by simp [last]
    exact keepsAct pres idle hs (listed member)
  · rename_i s action todo _ held more
    obtain ⟨hs, listed⟩ := h.hand s held
    have member : action ∈ r.todo := by simp [more]
    have fewer : todo ⊆ r.todo := by simp [more]
    have rest : Keeps e m P Q A F { r with todo } := by
      refine ⟨?_, h.waiting, h.moved, h.accepted, h.fault⟩
      intro t same
      obtain rfl := Option.some.inj (held.symm.trans same)
      exact ⟨hs, List.Subset.trans fewer listed⟩
    exact keepsForkAct pres rest hs (listed member)
  · split
    · refine ⟨fun s held => h.hand s held |>.imp_right fun _ => List.nil_subset _, by simp, h.moved,
        h.accepted, h.fault⟩
    · rename_i s waiting popped
      have queue := Queue.toListOfPop popped
      refine ⟨?_, ?_, h.moved, h.accepted, h.fault⟩
      · intro t same
        cases same
        exact ⟨h.waiting s (by simp [queue]), List.Subset.refl _⟩
      · intro t ht
        exact h.waiting t (by simp [queue, ht])

theorem runOfDone {r : Round V} (done : r.isDone e = true) : r.run e m = r := by
  rw [run, if_pos done]

theorem runStep {r : Round V} (working : r.isDone e = false) : r.run e m = (r.step e m).run e m := by
  rw [run, if_neg (by simp [working])]

theorem runDone (e : Engine V) (m : Moment V) (r : Round V) : (r.run e m).isDone e = true := by
  induction r using run.induct e m with
  | case1 r done =>
    rw [run, if_pos done]
    exact done
  | case2 r working ih =>
    rw [run, if_neg working]
    exact ih

structure Remembers (r r' : Round V) : Prop where
  overflowed : r'.overflowed = false → r.overflowed = false
  cycled : r'.cycled = false → r.cycled = false
  accepted : r.accepted.toList <+: r'.accepted.toList

omit [SemanticValue V] in
theorem Remembers.refl (r : Round V) : Remembers r r := ⟨id, id, List.prefix_rfl⟩

omit [SemanticValue V] in
theorem Remembers.trans {r r' r'' : Round V} (first : Remembers r r') (second : Remembers r' r'') :
    Remembers r r'' :=
  ⟨fun h => first.overflowed (second.overflowed h), fun h => first.cycled (second.cycled h),
    first.accepted.trans second.accepted⟩

theorem remembersAct (r : Round V) (s : Stack V) (action : Action) :
    Remembers r (act e m r s action) := by
  cases action with
  | reduce production =>
    simp only [act]
    split
    · exact ⟨id, fun uncut => (by cases uncut), List.prefix_rfl⟩
    · split
      · exact ⟨id, id, List.prefix_rfl⟩
      · exact ⟨id, id, List.prefix_rfl⟩
  | shift => exact ⟨id, id, List.prefix_rfl⟩
  | accept =>
    refine ⟨id, id, ?_⟩
    simp only [act, Queue.toListPush]
    exact List.prefix_append _ _
  | goto => exact ⟨id, id, List.prefix_rfl⟩

theorem remembersStarve (r : Round V) (s : Stack V) : Remembers r (starve e m r s) := by
  unfold starve
  split
  · exact ⟨id, id, List.prefix_rfl⟩
  · split
    · split
      · exact ⟨id, id, List.prefix_rfl⟩
      · exact ⟨id, id, List.prefix_rfl⟩
    · exact ⟨id, id, List.prefix_rfl⟩

theorem remembersForkAct (r : Round V) (s : Stack V) (action : Action) :
    Remembers r (forkAct e m r s action) := by
  unfold forkAct
  split
  · exact ⟨nofun, id, List.prefix_rfl⟩
  · have acted := remembersAct (e := e) (m := m)
      ({ r with nextId := r.nextId + 1 }.note e (.forks s.id r.nextId)) (s.fork r.nextId) action
    exact ⟨acted.overflowed, acted.cycled, acted.accepted⟩

theorem remembersStep (e : Engine V) (m : Moment V) (r : Round V) : Remembers r (r.step e m) := by
  unfold step
  split
  · rename_i s _ _
    have starved := remembersStarve (e := e) (m := m) { r with hand := none } s
    exact ⟨starved.overflowed, starved.cycled, starved.accepted⟩
  · rename_i s action _ _
    have acted := remembersAct (e := e) (m := m) { r with hand := none } s action
    exact ⟨acted.overflowed, acted.cycled, acted.accepted⟩
  · rename_i s action todo _ _ _
    have acted := remembersForkAct (e := e) (m := m) { r with todo } s action
    exact ⟨acted.overflowed, acted.cycled, acted.accepted⟩
  · split
    · exact ⟨id, id, List.prefix_rfl⟩
    · exact ⟨id, id, List.prefix_rfl⟩

theorem remembersRun (e : Engine V) (m : Moment V) (r : Round V) : Remembers r (r.run e m) := by
  induction r using run.induct e m with
  | case1 r done =>
    rw [run, if_pos done]
    exact .refl r
  | case2 r working ih =>
    rw [run, if_neg working]
    exact (remembersStep e m r).trans ih

omit [SemanticValue V] in
theorem remembersClose (e : Engine V) (r : Round V) : Remembers r (r.closeToken e) := by
  unfold closeToken
  split
  · refine ⟨fun h => ?_, id, List.prefix_rfl⟩
    simp only [note, Bool.or_eq_false_iff] at h
    exact h.1
  · exact .refl r

end Round

namespace Engine

theorem closeTokenSubset (e : Engine V) (r : Round V) :
    (r.closeToken e).moved.toList ⊆ r.moved.toList := by
  unfold Round.closeToken
  split
  · simp only [Round.note, Queue.toListOfList]
    exact List.take_subset _ _
  · exact List.Subset.refl _

@[simp]
theorem closeTokenAccepted (e : Engine V) (r : Round V) :
    (r.closeToken e).accepted = r.accepted := by
  unfold Round.closeToken
  split <;> rfl

@[simp]
theorem closeTokenFault (e : Engine V) (r : Round V) : (r.closeToken e).fault = r.fault := by
  unfold Round.closeToken
  split <;> rfl

@[simp]
theorem closeTokenHand (e : Engine V) (r : Round V) : (r.closeToken e).hand = r.hand := by
  unfold Round.closeToken
  split <;> rfl

theorem handOfDone {e : Engine V} {r : Round V} (done : r.isDone e = true) (sane : r.fault = none) :
    r.hand = none := by
  simp only [Round.isDone, sane, Option.isSome_none, Bool.false_or, Bool.and_eq_true,
    Option.isNone_iff_eq_none] at done
  exact done.1

theorem waitingOfDone {e : Engine V} {r : Round V} (done : r.isDone e = true) (sane : r.fault = none)
    (unfinished : ¬ (e.mode = .first ∧ r.accepted.isEmpty = false)) : r.waiting.isEmpty = true := by
  have idle := handOfDone done sane
  simp only [Round.isDone, sane, idle, Option.isSome_none, Option.isNone_none, Bool.true_and,
    Bool.false_or, Bool.or_eq_true, Bool.and_eq_true, Bool.not_eq_true', beq_iff_eq] at done
  exact done.resolve_right unfinished

theorem closeInputCons (tokens : List (Token V)) :
    ∃ token rest, closeInput tokens = token :: rest := by
  refine List.exists_cons_of_ne_nil fun empty => ?_
  unfold closeInput at empty
  split at empty
  · rename_i closed
    simp [empty] at closed
  · simp at empty

theorem closeInputEnd (tokens : List (Token V)) :
    ∃ last : Token V, last.isEnd = true ∧ closeInput tokens = remainingOf tokens ++ [last] := by
  rcases List.eq_nil_or_concat tokens with rfl | ⟨front, last, rfl⟩
  · exact ⟨Token.endOfInput, rfl, rfl⟩
  · by_cases closed : last.isEnd = true
    · exact ⟨last, closed, by simp [closeInput, remainingOf, closed]⟩
    · exact ⟨Token.endOfInput, rfl, by simp [closeInput, remainingOf, closed]⟩

theorem closeInputMem {tokens : List (Token V)} {t : Token V} (h : t ∈ closeInput tokens) :
    t ∈ tokens ∨ t.isEnd = true := by
  unfold closeInput at h
  split at h
  · exact .inl h
  · rcases List.mem_append.1 h with inside | last
    · exact .inl inside
    · exact .inr (List.mem_singleton.1 last ▸ rfl)

theorem remainingOrdinary {tokens : List (Token V)} (ordinary : ∀ t ∈ tokens.dropLast, t.isEnd = false) :
    ∀ t ∈ remainingOf tokens, t.isEnd = false := by
  rcases List.eq_nil_or_concat tokens with rfl | ⟨front, last, rfl⟩
  · simp [remainingOf]
  · rw [List.concat_eq_append, List.dropLast_concat] at ordinary
    by_cases closed : last.isEnd = true
    · simpa [remainingOf, closed] using ordinary
    · simp only [Bool.not_eq_true] at closed
      simp only [remainingOf, List.concat_eq_append, List.getLast?_concat, Option.any_some, closed,
        Bool.false_eq_true, if_false, List.forall_mem_append, List.forall_mem_singleton, and_true]
      exact ordinary

theorem remainingWhole {tokens : List (Token V)} (ordinary : ∀ t ∈ tokens, t.isEnd = false) :
    remainingOf tokens = tokens := by
  rcases List.eq_nil_or_concat tokens with rfl | ⟨front, last, rfl⟩
  · rfl
  · simp [remainingOf, ordinary last]

theorem readAll {tokens read rest : List (Token V)} {token : Token V}
    (input : read ++ token :: rest = closeInput tokens)
    (ordinary : ∀ t ∈ tokens.dropLast, t.isEnd = false) (ends : token.isEnd = true) :
    read = remainingOf tokens := by
  obtain ⟨last, _, closed⟩ := closeInputEnd tokens
  rw [closed] at input
  rcases List.eq_nil_or_concat rest with rfl | ⟨front, final, rfl⟩
  · exact (List.append_inj' input rfl).1
  · rw [List.concat_eq_append, ← List.cons_append, ← List.append_assoc] at input
    have content := (List.append_inj' input rfl).1
    have inside : token ∈ remainingOf tokens := by simp [← content]
    rw [remainingOrdinary ordinary _ inside] at ends
    contradiction

structure Placed (e : Engine V) (tokens seen : List (Token V)) (m : Moment V)
    (rest : List (Token V)) : Prop where
  input : seen ++ m.token :: rest = closeInput tokens
  known : e.automaton.terminal? m.token.kind = some m.terminal
  index : m.index = seen.length

variable [SemanticValue V]

def after (e : Engine V) (seen : List (Token V)) (m : Moment V) (rest : List (Token V)) (r : Round V) :
    Outcome V :=
  match r.fault with
  | some fault => ⟨.error (.internal fault), r⟩
  | none =>
    if e.mode == .first && !r.accepted.isEmpty then ⟨.ok r.accepted.toList, r⟩
    else if r.moved.isEmpty then ⟨exhausted seen m.token rest r, r⟩
    else e.runFrom (seen ++ [m.token]) (r.closeToken e) rest

theorem runFromUnknown {e : Engine V} {token : Token V}
    (unknown : e.automaton.terminal? token.kind = none) (seen rest : List (Token V)) (r : Round V) :
    e.runFrom seen r (token :: rest) = ⟨.error (.badToken token), r⟩ := by
  rw [runFrom, unknown]

theorem runFromKnown {e : Engine V} {token : Token V} {terminal : Symbol}
    (known : e.automaton.terminal? token.kind = some terminal) (seen rest : List (Token V))
    (r : Round V) :
    e.runFrom seen r (token :: rest) = e.after seen ⟨token, terminal, seen.length⟩ rest
      ((r.openToken e ⟨token, terminal, seen.length⟩).run e ⟨token, terminal, seen.length⟩) := by
  rw [runFrom, known]
  rfl

theorem afterNext {e : Engine V} {m : Moment V} {r : Round V} (sane : r.fault = none)
    (unfinished : ¬ (e.mode = .first ∧ r.accepted.isEmpty = false)) (alive : r.moved.isEmpty = false)
    (seen rest : List (Token V)) :
    e.after seen m rest r = e.runFrom (seen ++ [m.token]) (r.closeToken e) rest := by
  have searching : (e.mode == AcceptMode.first && !r.accepted.isEmpty) = false := by
    simpa using unfinished
  simp only [after, sane, searching, alive, Bool.false_eq_true, if_false]

inductive Visits (e : Engine V) (tokens : List (Token V)) :
    List (Token V) → Moment V → List (Token V) → Round V → Prop
  | first {token : Token V} {rest : List (Token V)} {terminal : Symbol}
      (input : closeInput tokens = token :: rest)
      (known : e.automaton.terminal? token.kind = some terminal) :
      Visits e tokens [] ⟨token, terminal, 0⟩ rest (Round.initial.openToken e ⟨token, terminal, 0⟩)
  | step {seen rest : List (Token V)} {m : Moment V} {r : Round V}
      (before : Visits e tokens seen m rest r) (working : r.isDone e = false) :
      Visits e tokens seen m rest (r.step e m)
  | next {seen rest : List (Token V)} {m : Moment V} {r : Round V} {token : Token V}
      {terminal : Symbol} (before : Visits e tokens seen m (token :: rest) r)
      (done : r.isDone e = true) (sane : r.fault = none)
      (unfinished : ¬ (e.mode = .first ∧ r.accepted.isEmpty = false))
      (alive : r.moved.isEmpty = false)
      (known : e.automaton.terminal? token.kind = some terminal) :
      Visits e tokens (seen ++ [m.token]) ⟨token, terminal, (seen ++ [m.token]).length⟩ rest
        ((r.closeToken e).openToken e ⟨token, terminal, (seen ++ [m.token]).length⟩)

variable {e : Engine V} {tokens seen rest : List (Token V)} {m : Moment V} {r : Round V}

theorem Visits.placed (h : e.Visits tokens seen m rest r) : e.Placed tokens seen m rest := by
  induction h with
  | first input known => exact ⟨input.symm, known, rfl⟩
  | step before working ih => exact ih
  | next before done sane unfinished alive known ih =>
    exact ⟨by simpa using ih.input, known, rfl⟩

theorem Visits.run (h : e.Visits tokens seen m rest r) : e.Visits tokens seen m rest (r.run e m) := by
  induction r using Round.run.induct e m with
  | case1 r done =>
    rw [Round.run, if_pos done]
    exact h
  | case2 r working ih =>
    rw [Round.run, if_neg working]
    exact ih (h.step (by simpa using working))

theorem Visits.resumes (h : e.Visits tokens seen m rest r) :
    e.run tokens = e.after seen m rest (r.run e m) := by
  induction h with
  | first input known =>
    rw [Engine.run, input, runFromKnown known]
    rfl
  | step before working ih => rw [ih, Round.runStep working]
  | next before done sane unfinished alive known ih =>
    rw [ih, Round.runOfDone done, afterNext sane unfinished alive, runFromKnown known]

theorem remembersAfter {m : Moment V} {rest : List (Token V)}
    (later : ∀ (seen : List (Token V)) (r : Round V), r.Remembers (e.runFrom seen r rest).last)
    (seen : List (Token V)) (r : Round V) : r.Remembers (e.after seen m rest r).last := by
  unfold after
  split
  · exact .refl r
  · split
    · exact .refl r
    · split
      · exact .refl r
      · exact (Round.remembersClose e r).trans (later _ _)

theorem remembersFrom (e : Engine V) (rest : List (Token V)) :
    ∀ (seen : List (Token V)) (r : Round V), r.Remembers (e.runFrom seen r rest).last := by
  induction rest with
  | nil =>
    intro seen r
    unfold runFrom
    split
    · exact .refl r
    · exact .refl r
  | cons token rest ih =>
    intro seen r
    cases known : e.automaton.terminal? token.kind with
    | none =>
      rw [runFromUnknown known]
      exact .refl r
    | some x =>
      rw [runFromKnown known]
      have opened : r.Remembers (r.openToken e ⟨token, x, seen.length⟩) := ⟨id, id, List.prefix_rfl⟩
      exact opened.trans ((Round.remembersRun e _ _).trans (remembersAfter ih seen _))

theorem Visits.remembers (h : e.Visits tokens seen m rest r) : r.Remembers (e.run tokens).last := by
  rw [h.resumes]
  exact (Round.remembersRun e m r).trans (remembersAfter (e.remembersFrom rest) seen _)

theorem Visits.keepsBoth {W M : List (Token V) → Stack V → Prop} {A : Accepted V → Prop}
    {F : Fault → Prop} (start : M [] (Stack.new 0))
    (opens : ∀ seen s, M seen s → W seen s.beginToken)
    (pres : ∀ {seen m rest}, e.Placed tokens seen m rest →
      Round.Preserves e m (W seen) (M (seen ++ [m.token])) A F)
    (h : e.Visits tokens seen m rest r) :
    r.Keeps e m (W seen) (M (seen ++ [m.token])) A F := by
  induction h with
  | first input known =>
    refine Round.Keeps.note ⟨by simp [Round.initial], ?_, by simp, by simp [Round.initial],
      by simp [Round.initial]⟩ _
    intro s hs
    simp only [Round.initial, Queue.toListOfList, List.map_cons, List.map_nil, List.mem_singleton] at hs
    rw [hs]
    exact opens [] _ start
  | step before working ih => exact Round.keepsStep (pres before.placed) ih
  | next before done sane unfinished alive known ih =>
    have idle := handOfDone done sane
    refine Round.Keeps.note ⟨by simp [idle], ?_, by simp, by simpa using ih.accepted,
      by simpa using ih.fault⟩ _
    intro s hs
    simp only [Queue.toListOfList, List.mem_map] at hs
    obtain ⟨t, ht, rfl⟩ := hs
    exact opens _ t (ih.moved t (closeTokenSubset e _ ht))

theorem Visits.keeps {I : List (Token V) → Stack V → Prop} {A : Accepted V → Prop} {F : Fault → Prop}
    (start : I [] (Stack.new 0)) (opens : ∀ seen s, I seen s → I seen s.beginToken)
    (pres : ∀ {seen m rest}, e.Placed tokens seen m rest →
      Round.Preserves e m (I seen) (I (seen ++ [m.token])) A F)
    (h : e.Visits tokens seen m rest r) :
    r.Keeps e m (I seen) (I (seen ++ [m.token])) A F := h.keepsBoth start opens pres

inductive Arrives (e : Engine V) (tokens : List (Token V)) : List (Token V) → List (Token V) → Prop
  | first : Arrives e tokens [] (closeInput tokens)
  | next {seen rest : List (Token V)} {m : Moment V} {r : Round V}
      (visited : e.Visits tokens seen m rest r) (alive : r.moved.isEmpty = false) :
      Arrives e tokens (seen ++ [m.token]) rest

theorem Arrives.input (h : e.Arrives tokens seen rest) : seen ++ rest = closeInput tokens := by
  cases h with
  | first => rfl
  | next visited alive => simpa using visited.placed.input

section
variable {P : Round V → Prop} (closes : ∀ r, P r → P (r.closeToken e))
  (each : ∀ {seen m rest r}, e.Visits tokens seen m rest r → P r)
include closes each

theorem Visits.lastFrom (rest : List (Token V)) :
    ∀ {seen m r}, e.Visits tokens seen m rest r → r.isDone e = true → P (e.after seen m rest r).last := by
  induction rest with
  | nil =>
    intro seen m r visited done
    unfold after
    split
    · exact each visited
    · split
      · exact each visited
      · split
        · exact each visited
        · rw [runFrom, List.getLast?_concat]
          exact closes r (each visited)
  | cons token rest ih =>
    intro seen m r visited done
    unfold after
    split
    · exact each visited
    · rename_i sane
      split
      · exact each visited
      · rename_i unfinished
        split
        · exact each visited
        · rename_i alive
          cases kind : e.automaton.terminal? token.kind with
          | none =>
            rw [runFromUnknown kind]
            exact closes r (each visited)
          | some terminal =>
            rw [runFromKnown kind]
            have next := visited.next done sane (by simpa using unfinished) (by simpa using alive) kind
            exact ih next.run (Round.runDone e _ _)

theorem runLast (start : P Round.initial) : P (e.run tokens).last := by
  obtain ⟨token, rest, input⟩ := closeInputCons tokens
  unfold run
  rw [input]
  cases kind : e.automaton.terminal? token.kind with
  | none =>
    rw [runFromUnknown kind]
    exact start
  | some terminal =>
    rw [runFromKnown kind]
    exact Visits.lastFrom closes each rest (Visits.first input kind).run (Round.runDone e _ _)

end

inductive Ends (e : Engine V) (tokens : List (Token V)) :
    Except (Rejection V) (List (Accepted V)) → Prop
  | unknown {seen rest : List (Token V)} {token : Token V}
      (arrives : e.Arrives tokens seen (token :: rest))
      (unknown : e.automaton.terminal? token.kind = none) : Ends e tokens (.error (.badToken token))
  | faulty {seen rest : List (Token V)} {m : Moment V} {r : Round V} {f : Fault}
      (visited : e.Visits tokens seen m rest r) (fault : r.fault = some f) :
      Ends e tokens (.error (.internal f))
  | done {seen rest : List (Token V)} {m : Moment V} {r : Round V}
      (visited : e.Visits tokens seen m rest r) (finished : r.isDone e = true)
      (sane : r.fault = none)
      (stops : (e.mode = .first ∧ r.accepted.isEmpty = false) ∨ r.moved.isEmpty = true ∨ rest = []) :
      Ends e tokens (exhausted seen m.token rest r)

theorem Visits.endsRound (visited : e.Visits tokens seen m rest r)
    (later : ∀ {after : Round V}, e.Visits tokens seen m rest after → after.isDone e = true →
      after.fault = none → ¬ (e.mode = .first ∧ after.accepted.isEmpty = false) →
      after.moved.isEmpty = false →
      Ends e tokens (e.runFrom (seen ++ [m.token]) (after.closeToken e) rest).result) :
    Ends e tokens (e.after seen m rest (r.run e m)).result := by
  have done := Round.runDone e m r
  have ran := visited.run
  generalize r.run e m = final at done ran
  unfold after
  split
  · rename_i fault faulty
    exact .faulty ran faulty
  · rename_i sane
    split
    · rename_i found
      simp only [Bool.and_eq_true, Bool.not_eq_true', beq_iff_eq] at found
      have answer : exhausted seen m.token rest final = .ok final.accepted.toList := by
        simp [exhausted, found.2]
      rw [← answer]
      exact .done ran done sane (.inl found)
    · rename_i unfinished
      split
      · rename_i stuck
        exact .done ran done sane (.inr (.inl stuck))
      · rename_i alive
        refine later ran done sane ?_ (by simpa using alive)
        simpa using unfinished

theorem Visits.endsFrom (rest : List (Token V)) :
    ∀ {seen m r}, e.Visits tokens seen m rest r → r.isDone e = true → r.fault = none →
      ¬ (e.mode = .first ∧ r.accepted.isEmpty = false) → r.moved.isEmpty = false →
      Ends e tokens (e.runFrom (seen ++ [m.token]) (r.closeToken e) rest).result := by
  induction rest with
  | nil =>
    intro seen m r visited done sane unfinished alive
    have same : exhausted seen m.token [] (r.closeToken e) = exhausted seen m.token [] r := by
      simp [exhausted]
    simp only [runFrom, List.getLast?_concat, List.dropLast_concat, same]
    exact .done visited done sane (.inr (.inr rfl))
  | cons token rest ih =>
    intro seen m r visited done sane unfinished alive
    cases kind : e.automaton.terminal? token.kind with
    | none =>
      rw [runFromUnknown kind]
      exact .unknown (.next visited alive) kind
    | some terminal =>
      rw [runFromKnown kind]
      exact (visited.next done sane unfinished alive kind).endsRound ih

theorem runEnds (e : Engine V) (tokens : List (Token V)) : Ends e tokens (e.run tokens).result := by
  obtain ⟨token, rest, input⟩ := closeInputCons tokens
  unfold run
  rw [input]
  cases kind : e.automaton.terminal? token.kind with
  | none =>
    have arrives : e.Arrives tokens [] (token :: rest) := input ▸ Arrives.first
    rw [runFromUnknown kind]
    exact .unknown arrives kind
  | some terminal =>
    rw [runFromKnown kind]
    exact (Visits.first input kind).endsRound (fun ran => Visits.endsFrom rest ran)

end Engine
end ForkingLR
