import ForkingLR.Proofs.Engine.Backing

/-! One engine with and without error recovery. Both runs take the same steps until the last stack
would die. There the strict run ends, and every stack the lenient one goes on with bears a mark: an
error terminal among its frames, or an error that was settled. What it accepts is never clean. -/
namespace ForkingLR

namespace Automaton
variable {V : Type} {a : Automaton}

theorem Spells.bottomOfStart (trimmed : a.Trimmed) {frames : Frames V} {word : List Symbol}
    (h : a.Spells frames word) (start : frames.state = 0) : word = [] := by
  cases h with
  | bottom => rfl
  | push below move =>
    exact absurd start (Grammar.movesNotStart trimmed.wellFormed (trimmed.moves.1 move))

theorem Spells.accepts (trimmed : a.Trimmed) {frames : Frames V} {word : List Symbol} {x : Symbol}
    (h : a.Spells frames word) (listed : .accept ∈ a.actions frames.state x) :
    word = [a.grammar.start] := by
  have wf := trimmed.wellFormed
  cases trimmed.offers listed with
  | accept last complete =>
    obtain ⟨under, spelled, origin⟩ := trimmed.spelled wf.startProduction h (trimmed.holds.2 complete)
    simp only [List.take_one, List.head?_cons, Option.toList_some, List.reverse_singleton,
      List.singleton_append] at spelled
    subst spelled
    cases h with
    | push below move =>
      rw [below.bottomOfStart trimmed (Grammar.startStateOnly wf (trimmed.holds.1 origin))]

theorem Spells.acceptsNoError (trimmed : a.Trimmed) {frames : Frames V} {word : List Symbol} {x : Symbol}
    (h : a.Spells frames word) (listed : .accept ∈ a.actions frames.state x) : .error ∉ word := by
  rw [h.accepts trimmed listed, List.mem_singleton]
  intro same
  have nonterminal := trimmed.wellFormed.startNonterminal
  rw [← same] at nonterminal
  contradiction

end Automaton

namespace Engine
variable {V : Type} [SemanticValue V] {e : Engine V}

theorem reduceSpelled (trimmed : e.automaton.Trimmed) {s after : Stack V} {id : Nat} {x : Symbol}
    {word : List Symbol} (spells : e.automaton.Spells s.frames word)
    (listed : .reduce id ∈ e.automaton.actions s.state x) (h : e.reduce s id = .ok after) :
    ∃ p ∈ e.automaton.grammar.productions, ∃ under, word = p.rhs.reverse ++ under ∧
      e.automaton.Spells after.frames (p.lhs :: under) ∧
      after.recovery = s.recovery.settleTimes id (p.rhs.count .error) := by
  obtain ⟨p, reducer, target, found, _, covers, goto, rfl⟩ := reduceSource h
  cases trimmed.offers listed with
  | @reduce _ p' _ _ _ found' complete =>
    obtain rfl := Option.some.inj (found'.symm.trans found)
    obtain ⟨under, rfl, _⟩ := trimmed.spelled found' spells (trimmed.holds.2 complete)
    rw [List.take_length] at spells ⊢
    have below := spells.covers.2
    rw [List.length_reverse] at below
    have same := Frames.topValuesLength [] covers
    exact ⟨p', List.mem_of_getElem? found', under, rfl, .push below (trimmed.gotoFound goto),
      argumentsSettled id _ _ _ same⟩

def Spelled (e : Engine V) (s : Stack V) : Prop := ∃ word, e.automaton.Spells s.frames word

/-- Recovery left a trace: an error terminal among the frames, or an error that was settled. -/
def Marked (e : Engine V) (s : Stack V) : Prop :=
  ∃ word, e.automaton.Spells s.frames word ∧ (.error ∈ word ∨ s.recovery.recovered ≠ [])

omit [SemanticValue V] in
theorem Marked.spelled {s : Stack V} (h : e.Marked s) : e.Spelled s := by
  obtain ⟨word, spells, _⟩ := h
  exact ⟨word, spells⟩

theorem markedRecover (trimmed : e.automaton.Trimmed) {m : Moment V} {s after : Stack V}
    (h : e.Spelled s) (recovered : e.recover? m s = some after) : e.Marked after := by
  obtain ⟨word, spells⟩ := h
  obtain ⟨count, target, covers, listed, rfl⟩ := recoverSource recovered
  exact ⟨_, .push (spells.drop covers) (trimmed.shiftMoves listed), .inl List.mem_cons_self⟩

theorem markedReduce (trimmed : e.automaton.Trimmed) {s after : Stack V} {id : Nat} {x : Symbol}
    (h : e.Marked s) (listed : .reduce id ∈ e.automaton.actions s.state x)
    (reduced : e.reduce s id = .ok after) : e.Marked after := by
  obtain ⟨word, spells, mark⟩ := h
  obtain ⟨p, _, under, rfl, spells', recovery⟩ := reduceSpelled trimmed spells listed reduced
  refine ⟨_, spells', ?_⟩
  rw [recovery]
  cases errors : p.rhs.count .error with
  | succ count => exact .inr (by simp [Recovery.settleTimes])
  | zero =>
    rcases mark with error | settled
    · rw [List.mem_append, List.mem_reverse] at error
      rcases error with inside | below
      · exact absurd inside (List.count_eq_zero.1 errors)
      · exact .inl (List.mem_cons_of_mem _ below)
    · exact .inr settled

theorem markedPreserved (trimmed : e.automaton.Trimmed)
    (made : e.reducers.length = e.automaton.grammar.size) {m : Moment V}
    (known : e.automaton.terminal? m.token.kind = some m.terminal) :
    Round.Preserves e m e.Marked e.Marked (fun x => x.errors ≠ []) (fun _ => False) where
  fork := fun _ _ h => h
  shift := by
    intro s target h listed
    obtain ⟨word, spells, mark⟩ := h
    exact ⟨_, .push spells (trimmed.shiftMoves listed), mark.imp_left (List.mem_cons_of_mem _)⟩
  reduce := fun s id after h listed reduced => markedReduce (s := s.countReduction) trimmed h listed reduced
  fails := fun s id f h => (spellsPreserved trimmed made known).fails s id f h.spelled
  accept := by
    intro s h listed
    obtain ⟨word, spells, mark⟩ := h
    exact mark.resolve_left (spells.acceptsNoError trimmed listed)
  goto := fun s target h => (spellsPreserved trimmed made known).goto s target h.spelled
  skip := by
    intro s h _ _
    obtain ⟨word, spells, mark⟩ := h
    exact ⟨word, spells, mark.imp_right (s.recovery.skipRecovered m.token).not.2⟩
  recover := fun s after h _ _ recovered => markedRecover trimmed h.spelled recovered

def withRecovery (e : Engine V) (able : Bool) : Engine V :=
  { e with options := { e.options with errorRecovery := able } }

end Engine

namespace Round
variable {V : Type} [SemanticValue V] {e : Engine V} {m : Moment V} {r : Round V}

theorem keepsRun {P Q : Stack V → Prop} {A : Accepted V → Prop} {F : Fault → Prop}
    (pres : Preserves e m P Q A F) (h : r.Keeps e m P Q A F) : (r.run e m).Keeps e m P Q A F := by
  induction r using run.induct e m with
  | case1 r done =>
    rw [run, if_pos done]
    exact h
  | case2 r working ih =>
    rw [run, if_neg working]
    exact ih (keepsStep pres h)

structure Spent (r : Round V) : Prop where
  hand : r.hand = none
  waiting : r.waiting.toList = []
  moved : r.moved.toList = []
  accepted : r.accepted.toList = []
  fault : r.fault = none

omit [SemanticValue V] in
theorem Spent.done (h : r.Spent) : r.isDone e = true := by
  simp [isDone, h.hand, h.fault, (Queue.isEmptyIff _).2 h.waiting]

omit [SemanticValue V] in
theorem Spent.keeps {P Q : Stack V → Prop} {A : Accepted V → Prop} {F : Fault → Prop} (h : r.Spent) :
    r.Keeps e m P Q A F := by
  refine ⟨?_, ?_, ?_, ?_, ?_⟩
  · simp [h.hand]
  · simp [h.waiting]
  · simp [h.moved]
  · simp [h.accepted]
  · simp [h.fault]

theorem stepSplits (e : Engine V) (m : Moment V) (sane : r.fault = none) :
    r.step (e.withRecovery true) m = r.step (e.withRecovery false) m ∨
      ∃ s, r.hand = some s ∧ (r.step (e.withRecovery false) m).Spent ∧
        ((r.step (e.withRecovery true) m).Spent ∨
          ∃ after event, (e.withRecovery true).recover? m s = some after ∧
            ({ r with hand := none } : Round V).Spent ∧
            r.step (e.withRecovery true) m = ({ r with hand := none }.note e event).enqueue after) := by
  unfold step
  split
  · rename_i s held _
    unfold starve
    split
    · exact .inl rfl
    · rename_i eager
      -- Only where the strict round would be spent may the last stack recover.
      by_cases may : mayRecover (e.withRecovery true) m { r with hand := none } s = true
      · have never : mayRecover (e.withRecovery false) m { r with hand := none } s = false := rfl
        rw [if_pos may, never, if_neg Bool.false_ne_true]
        simp only [mayRecover, Bool.and_eq_true, Queue.isEmptyIff] at may
        have spent : ({ r with hand := none } : Round V).Spent :=
          ⟨rfl, may.1.1.1.2, may.1.1.2, may.1.2, sane⟩
        refine .inr ⟨s, held, ⟨rfl, spent.waiting, spent.moved, spent.accepted, sane⟩, ?_⟩
        split
        · rename_i after found
          exact .inr ⟨after, _, found, spent, rfl⟩
        · exact .inl ⟨rfl, spent.waiting, spent.moved, spent.accepted, sane⟩
      · rw [if_neg may]
        exact .inl rfl
  · exact .inl rfl
  · exact .inl rfl
  · exact .inl rfl

theorem runSplits (trimmed : e.automaton.Trimmed)
    (made : e.reducers.length = e.automaton.grammar.size)
    (known : e.automaton.terminal? m.token.kind = some m.terminal)
    (h : r.Keeps (e.withRecovery true) m e.Spelled e.Spelled (fun _ => True) (fun _ => False)) :
    r.run (e.withRecovery true) m = r.run (e.withRecovery false) m ∨
      (r.run (e.withRecovery false) m).Spent ∧
        (r.run (e.withRecovery true) m).Keeps (e.withRecovery true) m e.Marked e.Marked
          (fun x => x.errors ≠ []) (fun _ => False) := by
  induction r using run.induct (e.withRecovery true) m with
  | case1 r done =>
    have done' : r.isDone (e.withRecovery false) = true := done
    rw [runOfDone done, runOfDone done']
    exact .inl rfl
  | case2 r working ih =>
    simp only [Bool.not_eq_true] at working
    have working' : r.isDone (e.withRecovery false) = false := working
    have sane : r.fault = none := Option.eq_none_iff_forall_ne_some.2 h.fault
    rw [runStep working, runStep working']
    rcases stepSplits e m sane with same | ⟨s, held, spent, lenient⟩
    · have next := ih (keepsStep (Engine.spellsPreserved (e := e.withRecovery true) trimmed made known) h)
      rw [same] at next ⊢
      exact next
    · rw [runOfDone spent.done]
      refine .inr ⟨spent, keepsRun
        (Engine.markedPreserved (e := e.withRecovery true) trimmed made known) ?_⟩
      rcases lenient with gone | ⟨after, event, recovered, rest, taken⟩
      · exact gone.keeps
      · rw [taken]
        exact (rest.keeps.note event).enqueue
          (Engine.markedRecover (e := e.withRecovery true) trimmed (h.hand s held).1 recovered)

end Round

def Outcome.RefusedAt {V : Type} (o : Outcome V) (index : Nat) : Prop :=
  ∃ seen current remaining, o.result = .error (.notInLanguage seen current remaining) ∧
    seen.length = index

namespace Engine
variable {V : Type}

inductive FailsAt (a : Automaton) (input : List (Token V)) : Rejection V → Nat → Prop
  | unknown {before rest : List (Token V)} {token : Token V} (split : before ++ token :: rest = input)
      (unknown : a.terminal? token.kind = none) : FailsAt a input (.badToken token) before.length
  | stuck {seen rest : List (Token V)} {current : Token V} (split : seen ++ current :: rest = input) :
      FailsAt a input (.notInLanguage seen current (remainingOf rest)) seen.length

/-- A failure at `index` or later, or acceptance after errors. -/
inductive Belated (a : Automaton) (input : List (Token V)) (index : Nat) :
    Except (Rejection V) (List (Accepted V)) → Prop
  | fails {reason : Rejection V} {later : Nat} (place : FailsAt a input reason later) (late : index ≤ later) :
      Belated a input index (.error reason)
  | handled {accepted : List (Accepted V)} (some : accepted ≠ [])
      (errors : ∀ x ∈ accepted, x.errors ≠ []) : Belated a input index (.ok accepted)

theorem Belated.earlier {a : Automaton} {input : List (Token V)} {index index' : Nat}
    {result : Except (Rejection V) (List (Accepted V))} (h : Belated a input index' result)
    (le : index ≤ index') : Belated a input index result := by
  cases h with
  | fails place late => exact .fails place (Nat.le_trans le late)
  | handled some errors => exact .handled some errors

variable [SemanticValue V] {e : Engine V} {input seen rest : List (Token V)} {m : Moment V} {r : Round V}

omit [SemanticValue V] in
theorem exhaustedBelated {a : Automaton} {token : Token V} (errors : ∀ x ∈ r.accepted.toList, x.errors ≠ [])
    (split : seen ++ token :: rest = input) :
    Belated a input seen.length (exhausted seen token rest r) := by
  unfold exhausted
  split
  · exact .fails (.stuck split) (Nat.le_refl _)
  · rename_i found
    rw [Queue.isEmptyIff] at found
    exact .handled found errors

structure Poised (P : Stack V → Prop) (A : Accepted V → Prop) (r : Round V) : Prop where
  hand : r.hand = none
  moved : ∀ s ∈ r.moved.toList, P s
  accepted : ∀ x ∈ r.accepted.toList, A x
  fault : r.fault = none

section
omit [SemanticValue V]
variable {P : Stack V → Prop} {A : Accepted V → Prop}

theorem poisedOfKeeps (done : r.isDone e = true) (h : r.Keeps e m P P A (fun _ => False)) : Poised P A r := by
  have sane : r.fault = none := Option.eq_none_iff_forall_ne_some.2 h.fault
  exact ⟨handOfDone done sane, h.moved, h.accepted, sane⟩

theorem Poised.closes (h : Poised P A r) : Poised P A (r.closeToken e) :=
  ⟨by simpa using h.hand, fun s inside => h.moved s (closeTokenSubset e r inside),
    by simpa using h.accepted, by simpa using h.fault⟩

theorem Poised.opens {Q : Stack V → Prop} (h : Poised P A r) (begins : ∀ s, P s → P s.beginToken) :
    (r.openToken e m).Keeps e m P Q A (fun _ => False) := by
  refine ⟨?_, ?_, ?_, h.accepted, ?_⟩
  · intro s held
    cases h.hand.symm.trans held
  · intro s inside
    simp only [Round.openToken, Round.note, Queue.toListOfList, List.mem_map] at inside
    obtain ⟨t, inside, rfl⟩ := inside
    exact begins t (h.moved t inside)
  · exact fun s inside => absurd inside List.not_mem_nil
  · intro f fault
    cases h.fault.symm.trans fault

end

theorem belatedAfter (split : seen ++ m.token :: rest = input)
    (h : Poised e.Marked (fun x => x.errors ≠ []) r)
    (later : Poised e.Marked (fun x => x.errors ≠ []) (r.closeToken e) →
      Belated e.automaton input seen.length
        (e.runFrom (seen ++ [m.token]) (r.closeToken e) rest).result) :
    Belated e.automaton input seen.length (e.after seen m rest r).result := by
  simp only [after, h.fault]
  split
  · rename_i found
    simp only [Bool.and_eq_true, Bool.not_eq_true', ← Bool.not_eq_true, Queue.isEmptyIff] at found
    exact .handled found.2 h.accepted
  · split
    · exact exhaustedBelated h.accepted split
    · exact later h.closes

theorem belatedFrom (trimmed : e.automaton.Trimmed)
    (made : e.reducers.length = e.automaton.grammar.size) :
    ∀ {rest seen : List (Token V)} {token : Token V} {r : Round V},
      seen ++ token :: rest = input → Poised e.Marked (fun x => x.errors ≠ []) r →
      Belated e.automaton input seen.length (e.runFrom (seen ++ [token]) r rest).result := by
  intro rest
  induction rest with
  | nil =>
    intro seen token r split h
    simp only [runFrom, List.getLast?_concat, List.dropLast_concat]
    exact exhaustedBelated h.accepted split
  | cons next rest ih =>
    intro seen token r split h
    have split' : (seen ++ [token]) ++ next :: rest = input := by simpa using split
    have longer : seen.length ≤ (seen ++ [token]).length := by simp
    refine Belated.earlier ?_ longer
    cases known : e.automaton.terminal? next.kind with
    | none =>
      rw [runFromUnknown known]
      exact .fails (.unknown split' known) (Nat.le_refl _)
    | some x =>
      rw [runFromKnown known]
      have keeps := Round.keepsRun (markedPreserved trimmed made known)
        (h.opens (m := ⟨next, x, (seen ++ [token]).length⟩) fun _ marked => marked)
      exact belatedAfter split' (poisedOfKeeps (Round.runDone e _ _) keeps) (ih split')

def Defers (input : List (Token V)) (e : Engine V) (strict lenient : Outcome V) : Prop :=
  lenient = strict ∨ ∃ index, strict.RefusedAt index ∧ Belated e.automaton input index lenient.result

theorem defersAfter (split : seen ++ m.token :: rest = input) (trimmed : e.automaton.Trimmed)
    (made : e.reducers.length = e.automaton.grammar.size)
    (later : ∀ {r : Round V}, Poised e.Spelled (fun _ => True) r →
      Defers input e ((e.withRecovery false).runFrom (seen ++ [m.token]) r rest)
        ((e.withRecovery true).runFrom (seen ++ [m.token]) r rest))
    (known : e.automaton.terminal? m.token.kind = some m.terminal)
    (h : r.Keeps (e.withRecovery true) m e.Spelled e.Spelled (fun _ => True) (fun _ => False)) :
    Defers input e ((e.withRecovery false).after seen m rest (r.run (e.withRecovery false) m))
      ((e.withRecovery true).after seen m rest (r.run (e.withRecovery true) m)) := by
  have keeps := Round.keepsRun (spellsPreserved (e := e.withRecovery true) trimmed made known) h
  have poised := poisedOfKeeps (Round.runDone _ _ _) keeps
  rcases Round.runSplits trimmed made known h with same | ⟨spent, marked⟩
  · rw [← same]
    generalize r.run (e.withRecovery true) m = final at poised
    have mode (able : Bool) : (e.withRecovery able).mode = e.mode := rfl
    simp only [after, poised.fault, mode]
    split
    · exact .inl rfl
    · split
      · exact .inl rfl
      · exact later (poised.closes (e := e))
  · refine .inr ⟨seen.length, ⟨seen, m.token, remainingOf rest, ?_, rfl⟩, ?_⟩
    · simp [after, spent.fault, exhausted, (Queue.isEmptyIff _).2 spent.moved,
        (Queue.isEmptyIff _).2 spent.accepted]
    · refine belatedAfter (e := e.withRecovery true) split (poisedOfKeeps (Round.runDone _ _ _) marked) ?_
      exact belatedFrom (e := e.withRecovery true) trimmed made split

theorem defersFrom (trimmed : e.automaton.Trimmed)
    (made : e.reducers.length = e.automaton.grammar.size) :
    ∀ {rest seen : List (Token V)} {r : Round V}, seen ++ rest = input →
      Poised e.Spelled (fun _ => True) r →
      Defers input e ((e.withRecovery false).runFrom seen r rest)
        ((e.withRecovery true).runFrom seen r rest) := by
  intro rest
  induction rest with
  | nil => exact fun _ _ => .inl rfl
  | cons token rest ih =>
    intro seen r split h
    have split' : (seen ++ [token]) ++ rest = input := by simpa using split
    cases known : e.automaton.terminal? token.kind with
    | none =>
      rw [runFromUnknown (e := e.withRecovery false) known, runFromUnknown (e := e.withRecovery true) known]
      exact .inl rfl
    | some x =>
      rw [runFromKnown (e := e.withRecovery false) known, runFromKnown (e := e.withRecovery true) known]
      exact defersAfter split trimmed made (ih split') known (h.opens fun _ spelled => spelled)

theorem runDefers (trimmed : e.automaton.Trimmed)
    (made : e.reducers.length = e.automaton.grammar.size) (tokens : List (Token V)) :
    Defers (closeInput tokens) e ((e.withRecovery false).run tokens) ((e.withRecovery true).run tokens) := by
  refine defersFrom trimmed made rfl ⟨rfl, ?_, by simp [Round.initial], rfl⟩
  intro s first
  simp only [Round.initial, Queue.toListOfList, List.mem_singleton] at first
  rw [first]
  exact ⟨[], .bottom⟩

theorem refusedBelated {tokens : List (Token V)} {index : Nat} (h : (e.run tokens).RefusedAt index) :
    Belated e.automaton (closeInput tokens) index (e.run tokens).result := by
  obtain ⟨seen, current, remaining, answer, rfl⟩ := h
  have ends := runEnds e tokens
  rw [answer] at ends ⊢
  generalize same : Except.error (Rejection.notInLanguage seen current remaining) = result at ends ⊢
  cases ends with
  | unknown => cases same
  | faulty => cases same
  | done visited =>
    unfold exhausted at same ⊢
    split at same
    · rename_i nothing
      rw [if_pos nothing]
      cases same
      exact .fails (.stuck visited.placed.input) (Nat.le_refl _)
    · cases same

end Engine

namespace Parser
variable {V : Type}

theorem belatedParse {a : Automaton} {input : List (Token V)} {index : Nat} {outcome : Outcome V}
    (h : Engine.Belated a input index outcome.result) :
    (∃ error, conclude firstMatch outcome = .error error) ∧
      ∃ error, conclude allMatches outcome = .error error := by
  unfold conclude
  generalize outcome.result = result at h
  cases h with
  | fails => exact ⟨⟨_, rfl⟩, _, rfl⟩
  | handled some errors =>
    obtain ⟨x, rest, rfl⟩ := List.exists_cons_of_ne_nil some
    have bad := errors x List.mem_cons_self
    have all : (x :: rest).flatMap Accepted.errors ≠ [] := by simp [bad]
    constructor
    · exact ⟨.handled x.errors x.value, by simp [firstMatch, bad]⟩
    · exact ⟨.handled _ _, if_neg (by simpa using all)⟩

theorem refusedParse {R : Type} {settle : List (Accepted V) → Except (ParseError V R) R}
    {strict lenient : Outcome V} {index : Nat} (refused : strict.RefusedAt index)
    (failed : ∃ error, conclude settle lenient = .error error) :
    ∃ seen current remaining error,
      conclude settle strict = .error (.rejected (.notInLanguage seen current remaining)) ∧
      conclude settle lenient = .error error := by
  obtain ⟨seen, current, remaining, answer, _⟩ := refused
  obtain ⟨error, failed⟩ := failed
  exact ⟨seen, current, remaining, error, by simp only [conclude, answer], failed⟩

theorem recoveryDefers [SemanticValue V] {g : Grammar} {config : TableConfig} (built : g.Built) (p : Parser V)
    (table : Automaton.build g config = .ok p.automaton) (made : p.reducers.length = g.size)
    (maxStacks : Nat) (tokens : List (Token V)) :
    (∀ mode,
      ((∀ index, ¬ (((p.withOptions ⟨false, maxStacks⟩).engine mode).run tokens).RefusedAt index) →
        ((p.withOptions ⟨true, maxStacks⟩).engine mode).run tokens =
          ((p.withOptions ⟨false, maxStacks⟩).engine mode).run tokens) ∧
      ∀ index, (((p.withOptions ⟨false, maxStacks⟩).engine mode).run tokens).RefusedAt index →
        Engine.Belated p.automaton (Engine.closeInput tokens) index
          (((p.withOptions ⟨true, maxStacks⟩).engine mode).run tokens).result) ∧
    ((p.withOptions ⟨true, maxStacks⟩).parse tokens = (p.withOptions ⟨false, maxStacks⟩).parse tokens ∨
      ∃ seen current remaining error,
        (p.withOptions ⟨false, maxStacks⟩).parse tokens =
          .error (.rejected (.notInLanguage seen current remaining)) ∧
        (p.withOptions ⟨true, maxStacks⟩).parse tokens = .error error) ∧
    ((p.withOptions ⟨true, maxStacks⟩).parseAll tokens = (p.withOptions ⟨false, maxStacks⟩).parseAll tokens ∨
      ∃ seen current remaining error,
        (p.withOptions ⟨false, maxStacks⟩).parseAll tokens =
          .error (.rejected (.notInLanguage seen current remaining)) ∧
        (p.withOptions ⟨true, maxStacks⟩).parseAll tokens = .error error) := by
  have trimmed := Automaton.trimmedBuild built table
  obtain rfl : p.automaton.grammar = g := (Automaton.buildSource table).1
  have defers (mode : AcceptMode) :=
    Engine.runDefers (e := (p.withOptions ⟨true, maxStacks⟩).engine mode) trimmed made tokens
  refine ⟨?_, ?_, ?_⟩
  · intro mode
    rcases defers mode with same | ⟨index, refused, belated⟩
    · refine ⟨fun _ => same, fun index refused => ?_⟩
      have fails := Engine.refusedBelated
        (e := ((p.withOptions ⟨true, maxStacks⟩).engine mode).withRecovery false) refused
      rw [← same] at fails
      exact fails
    · refine ⟨fun never => absurd refused (never index), fun index' refused' => ?_⟩
      obtain ⟨seen, current, remaining, answer, rfl⟩ := refused
      obtain ⟨seen', current', remaining', answer', rfl⟩ := refused'
      cases answer.symm.trans answer'
      exact belated
  · rcases defers .first with same | ⟨index, refused, belated⟩
    · exact .inl (congrArg (conclude firstMatch) same)
    · exact .inr (refusedParse refused (belatedParse belated).1)
  · rcases defers .all with same | ⟨index, refused, belated⟩
    · exact .inl (congrArg (conclude allMatches) same)
    · exact .inr (refusedParse refused (belatedParse belated).2)

theorem brokenSumDefers :
    ∃ p : Parser Value, ParserDraft.sums.finalize {} = .ok p ∧
      (((p.withOptions ⟨false, 8⟩).engine .first).run brokenSum).RefusedAt 2 ∧
      Engine.Belated p.automaton (Engine.closeInput brokenSum) 2
        (((p.withOptions ⟨true, 8⟩).engine .first).run brokenSum).result ∧
      ((p.withOptions ⟨true, 8⟩).engine .all).run [{ kind := "N" }] =
        ((p.withOptions ⟨false, 8⟩).engine .all).run [{ kind := "N" }] := by
  have ran : ((ParserDraft.sums.finalize {}).toOption.any fun p =>
      (match (((p.withOptions ⟨false, 8⟩).engine .first).run brokenSum).result with
        | .error (.notInLanguage seen _ _) => seen.length == 2
        | _ => false) &&
        (((p.withOptions ⟨false, 8⟩).engine .all).run [{ kind := "N" }]).result.isOk) = true := by
    decide +kernel
  obtain ⟨p, finished, ran⟩ := okOfAny ran
  rw [Bool.and_eq_true] at ran
  obtain ⟨broken, clean⟩ := ran
  obtain ⟨g, a, built, table, rfl⟩ := ParserDraft.finalizeSource finished
  have defers (tokens : List (Token Value)) (mode : AcceptMode) :=
    (recoveryDefers ⟨_, built⟩ (ParserDraft.sums.toParser g a) table (ParserDraft.sums.reducersLength g) 8
      tokens).1 mode
  have refused : ((((ParserDraft.sums.toParser g a).withOptions ⟨false, 8⟩).engine .first).run
      brokenSum).RefusedAt 2 := by
    split at broken
    · rename_i seen current remaining answer
      exact ⟨seen, current, remaining, answer, by simpa using broken⟩
    · cases broken
  refine ⟨_, finished, refused, (defers brokenSum .first).2 2 refused, ?_⟩
  refine (defers [{ kind := "N" }] .all).1 ?_
  intro index refused'
  obtain ⟨seen, current, remaining, answer, _⟩ := refused'
  rw [answer] at clean
  cases clean

end Parser
end ForkingLR
