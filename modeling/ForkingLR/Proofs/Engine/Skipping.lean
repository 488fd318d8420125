import ForkingLR.Proofs.Engine.Lenience

/-! What becomes of the tokens that a stack skips. Along the life of a stack each of them is put on
record, in the order of the input, and settling an error moves it from the pending error to a settled
one. The record of a pending error is lost when the stack recovers once more before that error is
settled; nothing else is. -/
namespace ForkingLR

namespace Recovery
variable {V : Type}

def listed (r : Recovery V) : List (Token V) :=
  r.recovered.flatMap RecoveredError.tokens ++ r.pending.getD []

@[simp]
theorem listedSettleTimes (r : Recovery V) (production count : Nat) :
    (r.settleTimes production count).listed = r.listed := by
  cases count with
  | zero => rfl
  | succ count => simp [settleTimes, listed]

theorem listedEnter (r : Recovery V) (index : Nat) :
    r.listed = (r.enter index).listed ++ r.pending.getD [] := by simp [enter, listed]

theorem listedAppend {errors : List (RecoveredError V)} (token : Token V) (some : errors ≠ []) :
    (appendToLast token errors).flatMap RecoveredError.tokens =
      errors.flatMap RecoveredError.tokens ++ [token] := by
  fun_induction appendToLast token errors with
  | case1 => exact absurd rfl some
  | case2 error => simp
  | case3 error rest more ih => simp [ih more]

def Open (r : Recovery V) : Prop := r.pending ≠ none ∨ r.recovered ≠ []

theorem listedSkip {r : Recovery V} (token : Token V) (home : r.Open) :
    (r.skip token).listed = r.listed ++ [token] := by
  cases pending : r.pending with
  | some tokens => simp [skip, listed, pending]
  | none =>
    have settled : r.recovered ≠ [] := home.resolve_left (· pending)
    simp [skip, listed, pending, listedAppend token settled]

theorem openSkip {r : Recovery V} (token : Token V) (home : r.Open) : (r.skip token).Open := by
  cases pending : r.pending with
  | some tokens => exact .inl (by simp [skip, pending])
  | none =>
    have settled : r.recovered ≠ [] := home.resolve_left (· pending)
    exact .inr ((r.skipRecovered token).not.2 settled)

@[simp]
theorem errorModeSettleTimes (r : Recovery V) (production count : Nat) :
    (r.settleTimes production count).errorMode = r.errorMode := by
  cases count with
  | zero => rfl
  | succ count => rfl

theorem openSettleTimes {r : Recovery V} (production count : Nat) (home : r.Open) :
    (r.settleTimes production count).Open := by
  cases count with
  | zero => exact home
  | succ count => exact .inr (by simp [settleTimes])

end Recovery

namespace Engine
variable {V : Type} [SemanticValue V]

/-- The life of a stack in a run over `tokens`, up to where `seen` has been read: the tokens it
skipped, oldest first, and those of them that were pending when it recovered. -/
inductive Lineage (e : Engine V) (tokens : List (Token V)) :
    List (Token V) → Stack V → List (Token V) → List (Token V) → Prop
  | start : Lineage e tokens [] (Stack.new 0) [] []
  | opens {seen skipped lost : List (Token V)} {s : Stack V} (before : Lineage e tokens seen s skipped lost) :
      Lineage e tokens seen s.beginToken skipped lost
  | fork {seen skipped lost : List (Token V)} {s : Stack V} (id : Nat)
      (before : Lineage e tokens seen s skipped lost) : Lineage e tokens seen (s.fork id) skipped lost
  | shift {seen rest skipped lost : List (Token V)} {s : Stack V} {m : Moment V} {target : Nat}
      (before : Lineage e tokens seen s skipped lost) (placed : e.Placed tokens seen m rest)
      (listed : .shift target ∈ e.automaton.actions s.state m.terminal) :
      Lineage e tokens (seen ++ [m.token]) (Round.shifted m s target) skipped lost
  | reduce {seen rest skipped lost : List (Token V)} {s after : Stack V} {m : Moment V} {id : Nat}
      (before : Lineage e tokens seen s skipped lost) (placed : e.Placed tokens seen m rest)
      (listed : .reduce id ∈ e.automaton.actions s.state m.terminal)
      (reduced : e.reduce s.countReduction id = .ok after) : Lineage e tokens seen after skipped lost
  | skip {seen rest skipped lost : List (Token V)} {s : Stack V} {m : Moment V}
      (before : Lineage e tokens seen s skipped lost) (placed : e.Placed tokens seen m rest)
      (mode : s.recovery.errorMode = true) (inside : m.terminal ≠ .endOfInput) :
      Lineage e tokens (seen ++ [m.token]) { s with recovery := s.recovery.skip m.token }
        (skipped ++ [m.token]) lost
  | recover {seen rest skipped lost : List (Token V)} {s after : Stack V} {m : Moment V}
      (before : Lineage e tokens seen s skipped lost) (placed : e.Placed tokens seen m rest)
      (able : e.options.errorRecovery = true) (fresh : s.recovery.canRecoverAt m.index = true)
      (recovered : e.recover? m s = some after) :
      Lineage e tokens seen after skipped (lost ++ s.recovery.pending.getD [])

structure Ledger (e : Engine V) (seen : List (Token V)) (s : Stack V) (skipped lost : List (Token V)) :
    Prop where
  read : skipped.Sublist seen
  kept : s.recovery.listed.Sublist skipped
  all : skipped.Perm (s.recovery.listed ++ lost)
  home : s.recovery.errorMode = true → s.recovery.Open
  owed : ∃ word, e.automaton.Spells s.frames word ∧ (s.recovery.pending ≠ none → .error ∈ word)

variable {e : Engine V} {tokens seen rest skipped lost : List (Token V)} {s : Stack V} {m : Moment V}

theorem Ledger.shift (trimmed : e.automaton.Trimmed) (h : e.Ledger seen s skipped lost) {target : Nat}
    (listed : .shift target ∈ e.automaton.actions s.state m.terminal) :
    e.Ledger (seen ++ [m.token]) (Round.shifted m s target) skipped lost := by
  obtain ⟨word, spells, owed⟩ := h.owed
  refine ⟨h.read.trans (List.sublist_append_left _ _), h.kept, h.all, nofun, ?_⟩
  exact ⟨_, .push spells (trimmed.shiftMoves listed), fun due => List.mem_cons_of_mem _ (owed due)⟩

theorem Ledger.reduce (trimmed : e.automaton.Trimmed) (h : e.Ledger seen s skipped lost) {after : Stack V}
    {id : Nat} {x : Symbol} (listed : .reduce id ∈ e.automaton.actions s.state x)
    (reduced : e.reduce s id = .ok after) : e.Ledger seen after skipped lost := by
  obtain ⟨word, spells, owed⟩ := h.owed
  obtain ⟨p, _, under, rfl, spells', recovery⟩ := reduceSpelled trimmed spells listed reduced
  refine ⟨h.read, ?_, ?_, ?_, _, spells', ?_⟩
  · rw [recovery, Recovery.listedSettleTimes]
    exact h.kept
  · rw [recovery, Recovery.listedSettleTimes]
    exact h.all
  · rw [recovery, Recovery.errorModeSettleTimes]
    exact fun mode => Recovery.openSettleTimes id _ (h.home mode)
  · rw [recovery]
    cases errors : p.rhs.count .error with
    | succ count => exact fun due => absurd rfl due
    | zero =>
      intro due
      have error := owed due
      rw [List.mem_append, List.mem_reverse] at error
      exact List.mem_cons_of_mem _ (error.resolve_left (List.count_eq_zero.1 errors))

omit [SemanticValue V] in
theorem Ledger.skip (h : e.Ledger seen s skipped lost) (mode : s.recovery.errorMode = true)
    (token : Token V) :
    e.Ledger (seen ++ [token]) { s with recovery := s.recovery.skip token } (skipped ++ [token]) lost := by
  obtain ⟨word, spells, owed⟩ := h.owed
  have home := h.home mode
  have listed := Recovery.listedSkip token home
  refine ⟨h.read.append (List.Sublist.refl _), ?_, ?_, fun _ => Recovery.openSkip token home, word, spells, ?_⟩
  · rw [listed]
    exact h.kept.append (List.Sublist.refl _)
  · rw [listed]
    have all := h.all.append_right [token]
    rw [List.append_assoc] at all ⊢
    exact all.trans (List.perm_append_comm.append_left _)
  · intro due
    refine owed fun none => due ?_
    simp [Recovery.skip, none]

theorem Ledger.recover (trimmed : e.automaton.Trimmed) (h : e.Ledger seen s skipped lost) {after : Stack V}
    (recovered : e.recover? m s = some after) :
    e.Ledger seen after skipped (lost ++ s.recovery.pending.getD []) := by
  obtain ⟨word, spells, _⟩ := h.owed
  obtain ⟨count, target, covers, listed, rfl⟩ := recoverSource recovered
  have entered := s.recovery.listedEnter m.index
  have kept := h.kept
  have all := h.all
  rw [entered] at kept all
  refine ⟨h.read, (List.sublist_append_left _ _).trans kept, ?_, fun _ => .inl nofun, _,
    .push (spells.drop covers) (trimmed.shiftMoves listed), fun _ => List.mem_cons_self⟩
  rw [List.append_assoc] at all
  exact all.trans (List.perm_append_comm.append_left _)

theorem Lineage.ledger (trimmed : e.automaton.Trimmed) (h : e.Lineage tokens seen s skipped lost) :
    e.Ledger seen s skipped lost := by
  induction h with
  | start => exact ⟨.slnil, .slnil, .nil, nofun, [], .bottom, fun due => absurd rfl due⟩
  | opens before ih => exact ⟨ih.read, ih.kept, ih.all, ih.home, ih.owed⟩
  | fork id before ih => exact ⟨ih.read, ih.kept, ih.all, ih.home, ih.owed⟩
  | shift before placed listed ih => exact ih.shift trimmed listed
  | reduce before placed listed reduced ih =>
    have counted : e.Ledger _ (Stack.countReduction _) _ _ := ⟨ih.read, ih.kept, ih.all, ih.home, ih.owed⟩
    exact counted.reduce trimmed listed reduced
  | skip before placed mode inside ih => exact ih.skip mode _
  | recover before placed able fresh recovered ih => exact ih.recover trimmed recovered

def Descends (e : Engine V) (tokens seen : List (Token V)) (s : Stack V) : Prop :=
  ∃ skipped lost, e.Lineage tokens seen s skipped lost

theorem descendsPreserved (trimmed : e.automaton.Trimmed) (placed : e.Placed tokens seen m rest) :
    Round.Preserves e m (e.Descends tokens seen) (e.Descends tokens (seen ++ [m.token]))
      (fun x => ∃ seen s, e.Descends tokens seen s ∧
        .accept ∈ e.automaton.actions s.state .endOfInput ∧ x = ⟨s.topValue, s.recovery.recovered⟩)
      (fun _ => True) where
  fork := fun _ id ⟨_, _, h⟩ => ⟨_, _, h.fork id⟩
  shift := fun _ _ ⟨_, _, h⟩ listed => ⟨_, _, h.shift placed listed⟩
  reduce := fun _ _ _ ⟨_, _, h⟩ listed reduced => ⟨_, _, h.reduce placed listed reduced⟩
  fails := fun _ _ _ _ _ _ => trivial
  accept := by
    intro s h listed
    have last : m.terminal = .endOfInput := by
      cases trimmed.offers listed with
      | accept last _ => exact last
    exact ⟨seen, s, h, last ▸ listed, rfl⟩
  goto := fun _ _ _ _ => trivial
  skip := fun _ ⟨_, _, h⟩ mode inside => ⟨_, _, h.skip placed mode inside⟩
  recover := fun _ _ ⟨_, _, h⟩ able fresh recovered => ⟨_, _, h.recover placed able fresh recovered⟩

theorem skippedAccounted {g : Grammar} {config : TableConfig} (built : g.Built) (e : Engine V)
    (table : Automaton.build g config = .ok e.automaton) (tokens : List (Token V)) :
    (∀ accepted, (e.run tokens).result = .ok accepted → ∀ x ∈ accepted,
      ∃ seen s skipped lost, e.Lineage tokens seen s skipped lost ∧
        .accept ∈ e.automaton.actions s.state .endOfInput ∧
        x = ⟨s.topValue, s.recovery.recovered⟩) ∧
    ∀ seen s skipped lost, e.Lineage tokens seen s skipped lost →
      .accept ∈ e.automaton.actions s.state .endOfInput →
      skipped.Sublist seen ∧
      (s.recovery.recovered.flatMap RecoveredError.tokens).Sublist skipped ∧
      skipped.Perm (s.recovery.recovered.flatMap RecoveredError.tokens ++ lost) ∧
      (lost = [] → s.recovery.recovered.flatMap RecoveredError.tokens = skipped) := by
  have trimmed := Automaton.trimmedBuild built table
  constructor
  · intro accepted answer x inside
    have ends := runEnds e tokens
    rw [answer] at ends
    generalize same : Except.ok accepted = result at ends
    cases ends with
    | unknown => cases same
    | faulty => cases same
    | done visited =>
      unfold exhausted at same
      split at same
      · cases same
      · cases same
        have kept := visited.keeps (I := e.Descends tokens) ⟨_, _, .start⟩
          (fun _ _ ⟨_, _, h⟩ => ⟨_, _, h.opens⟩) (descendsPreserved trimmed)
        obtain ⟨seen, s, ⟨skipped, lost, lineage⟩, listed, rfl⟩ := kept.accepted x inside
        exact ⟨seen, s, skipped, lost, lineage, listed, rfl⟩
  · intro seen s skipped lost lineage listed
    have books := lineage.ledger trimmed
    obtain ⟨word, spells, owed⟩ := books.owed
    have nothing : s.recovery.pending = none := by
      by_contra due
      exact spells.acceptsNoError trimmed listed (owed due)
    have final : s.recovery.listed = s.recovery.recovered.flatMap RecoveredError.tokens := by
      simp [Recovery.listed, nothing]
    rw [← final]
    refine ⟨books.read, books.kept, books.all, ?_⟩
    rintro rfl
    refine books.kept.eq_of_length ?_
    rw [books.all.length_eq, List.append_nil]

end Engine

namespace ParserDraft

def triples : ParserDraft Value where
  grammar := .ofCalls [.declare "s" ["A", "B", "C"], .declare "s" ["ERROR", "B", "C"]]

end ParserDraft

def Event.skipped? : Event → Option String
  | .skips _ kind => some kind
  | _ => none

def wrongTriple : List (Token Value) := [{ kind := "C" }, { kind := "B" }, { kind := "C" }]

def restartedTriple : List (Token Value) :=
  [{ kind := "C" }, { kind := "B" }, { kind := "A" }, { kind := "B" }, { kind := "C" }]

namespace Engine

theorem wrongTripleAccounted :
    ∃ p x, ParserDraft.triples.finalize {} = .ok p ∧
      ((p.engine .first).run wrongTriple).result = .ok [x] ∧
      (x.errors.flatMap RecoveredError.tokens).map Token.kind = ["C"] ∧
      ∃ seen s skipped lost, (p.engine .first).Lineage wrongTriple seen s skipped lost ∧
        x.errors = s.recovery.recovered ∧ skipped.Perm (x.errors.flatMap RecoveredError.tokens ++ lost) := by
  have ran : ((ParserDraft.triples.finalize {}).toOption.any fun p =>
      ((p.engine .first).run wrongTriple).result.toOption.any fun answers =>
        answers.map (fun x => (x.errors.flatMap RecoveredError.tokens).map Token.kind) == [["C"]]) =
      true := by decide +kernel
  obtain ⟨p, finished, ran⟩ := okOfAny ran
  obtain ⟨g, a, built, table, rfl⟩ := ParserDraft.finalizeSource finished
  obtain ⟨answers, answer, kinds⟩ := okOfAny ran
  obtain ⟨x, rfl, reported⟩ := List.map_eq_singleton_iff.1 (beq_iff_eq.1 kinds)
  obtain ⟨comes, balances⟩ :=
    skippedAccounted ⟨_, built⟩ ((ParserDraft.triples.toParser g a).engine .first) table wrongTriple
  obtain ⟨seen, s, skipped, lost, lineage, listed, rfl⟩ := comes _ answer x List.mem_cons_self
  have books := balances seen s skipped lost lineage listed
  exact ⟨_, _, finished, answer, reported, seen, s, skipped, lost, lineage, rfl, books.2.2.1⟩

theorem restartedTripleLoses :
    ∃ p x, ParserDraft.triples.finalize {} = .ok p ∧
      ({ p.engine .first with traced := true }.run restartedTriple).result = .ok [x] ∧
      ({ p.engine .first with traced := true }.run restartedTriple).last.nextId = 1 ∧
      ({ p.engine .first with traced := true }.run restartedTriple).log.filterMap Event.skipped? = ["C", "A"] ∧
      (x.errors.flatMap RecoveredError.tokens).map Token.kind = ["A"] := by
  have ran : ((ParserDraft.triples.finalize {}).toOption.any fun p =>
      let outcome := { p.engine .first with traced := true }.run restartedTriple
      outcome.last.nextId == 1 && outcome.log.filterMap Event.skipped? == ["C", "A"] &&
        outcome.result.toOption.any fun answers =>
          answers.map (fun x => (x.errors.flatMap RecoveredError.tokens).map Token.kind) == [["A"]]) =
      true := by decide +kernel
  obtain ⟨p, finished, ran⟩ := okOfAny ran
  simp only [Bool.and_eq_true, beq_iff_eq] at ran
  obtain ⟨⟨alone, skipped⟩, ran⟩ := ran
  obtain ⟨answers, answer, kinds⟩ := okOfAny ran
  obtain ⟨x, rfl, reported⟩ := List.map_eq_singleton_iff.1 (beq_iff_eq.1 kinds)
  exact ⟨p, x, finished, answer, alone, skipped, reported⟩

end Engine
end ForkingLR
