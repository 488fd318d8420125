import ForkingLR.Proofs.Engine.Path
import ForkingLR.Proofs.Table.Lookahead

/-! Pruning by lookahead is invisible. A reduction that lookahead rules out leads to a stack that can
neither shift the token nor accept, and so does everything that stack does next. The run over the
pruned table goes through the same stacks with such stacks left out, and answers the same. -/
namespace ForkingLR

namespace Automaton
open Table
variable {V : Type} {a b : Automaton}

structure Thinned (a b : Automaton) : Prop where
  trimmed : a.Trimmed
  trimmed' : b.Trimmed
  grammar : b.grammar = a.grammar
  size : b.size = a.size
  nodup : ∀ s x, (a.actions s x).Nodup
  sublist : ∀ s x, (b.actions s x).Sublist (a.actions s x)
  gone : ∀ {s x action}, action ∈ a.actions s x → action ∉ b.actions s x →
    ∃ id, action = .reduce id ∧ ∀ {p word}, a.grammar.productions[id]? = some p →
      a.grammar.walk a.grammar.lr0States 0 (word ++ p.rhs) = .ok s →
      ¬ a.grammar.Takes x (word ++ [p.lhs])

theorem thinnedBuild {g : Grammar} (built : g.Built) (plain : build g ⟨false, false⟩ = .ok a)
    (pruned : build g ⟨true, false⟩ = .ok b) : a.Thinned b := by
  have trimmed := trimmedBuild built plain
  have trimmed' := trimmedBuild built pruned
  have unresolved := unresolvedBuild built plain (.inl rfl)
  have unresolved' := unresolvedBuild built pruned (.inl rfl)
  obtain ⟨rfl, _, _, looked, same⟩ := buildSource plain
  obtain ⟨grammar, _, _, looked', same'⟩ := buildSource pruned
  cases looked
  obtain ⟨allowed, pointwise, _⟩ := lookaheadPointwise looked'
  rw [← show b.states = _ from same', ← show a.states = _ from same] at pointwise
  refine ⟨trimmed, trimmed', grammar, pointwise.1.symm, unresolved.nodup, ?_, ?_⟩
  · intro s x
    rcases pointwise.at s with ⟨none, none'⟩ | ⟨st, st', here, here', cut⟩
    · simp [actions, none, none']
    · rw [actionsAt here, actionsAt here']
      exact cut.sublist x
  · intro s x action listed missing
    have offered := trimmed.offers listed
    have ruledOut : ∃ id lookaheads, action = .reduce id ∧
        a.grammar.lookaheads a.grammar.lr0States = .ok lookaheads ∧ x ∉ lookaheads.getD ⟨s, id⟩ ∅ := by
      by_contra allowed
      push Not at allowed
      exact missing (unresolved'.keeps (grammar.symm ▸ offered) (grammar.symm ▸ allowed))
    obtain ⟨id, lookaheads, rfl, answer, outside⟩ := ruledOut
    refine ⟨id, rfl, ?_⟩
    intro p word found walked takes
    cases offered with
    | reduce known =>
      have expects := takes.expects trimmed.wellFormed (Grammar.isTerminalOfMem known) found
      exact outside (Grammar.expectsLookahead trimmed.wellFormed answer found walked expects)

theorem Thinned.goto (thinned : a.Thinned b) {s t : Nat} {x : Symbol} (nonterminal : isTerminal x = false)
    (h : a.goto? s x = some t) : b.goto? s x = some t := by
  have move := thinned.trimmed.moves.1 (thinned.trimmed.gotoFound h)
  rw [← thinned.grammar] at move
  exact thinned.trimmed'.gotoOfMoves nonterminal (thinned.trimmed'.moves.2 move)

/-- No reductions on these frames lead to a shift of the terminal or to acceptance. -/
def Hopeless (a : Automaton) (x : Symbol) (frames : Frames V) : Prop :=
  ∃ word, a.Spells frames word ∧ ¬ a.grammar.Takes x word.reverse

def Futile (a : Automaton) (x : Symbol) (frames : Frames V) (action : Action) : Prop :=
  ∃ id, action = .reduce id ∧ ∀ p target value, a.production? id = some p →
    a.goto? (frames.drop p.rhs.length).state p.lhs = some target →
    a.Hopeless x (.push target value (frames.drop p.rhs.length))

theorem Trimmed.reduced (trimmed : a.Trimmed) {frames : Frames V} {word : List Symbol} {x : Symbol}
    {id target : Nat} {p : Production Symbol} (spells : a.Spells frames word)
    (listed : .reduce id ∈ a.actions frames.state x) (found : a.production? id = some p)
    (goto : a.goto? (frames.drop p.rhs.length).state p.lhs = some target) (value : V) :
    ∃ under, word = p.rhs.reverse ++ under ∧
      a.Spells (.push target value (frames.drop p.rhs.length)) (p.lhs :: under) := by
  cases trimmed.offers listed with
  | @reduce _ p' known ordinary other found' complete =>
    obtain rfl := Option.some.inj (found'.symm.trans found)
    obtain ⟨under, spelled, _⟩ := trimmed.spelled found' spells (trimmed.holds.2 complete)
    rw [List.take_length] at spelled
    have below := (spelled ▸ spells).covers.2
    rw [List.length_reverse] at below
    exact ⟨under, spelled, .push below (trimmed.gotoFound goto)⟩

theorem Hopeless.futile (trimmed : a.Trimmed) {x : Symbol} {frames : Frames V}
    (h : a.Hopeless x frames) (terminal : isTerminal x = true) {action : Action}
    (listed : action ∈ a.actions frames.state x) : a.Futile x frames action := by
  obtain ⟨word, spells, never⟩ := h
  have walked := spells.walk trimmed
  cases action with
  | shift t =>
    have move := trimmed.moves.1 (trimmed.shiftMoves listed)
    exact absurd (.shift walked move) never
  | accept =>
    cases trimmed.offers listed with
    | accept last complete => exact absurd (.accept last ⟨_, walked, complete⟩) never
  | goto t =>
    cases trimmed.offers listed with
    | goto nonterminal =>
      rw [terminal] at nonterminal
      contradiction
  | reduce id =>
    refine ⟨id, rfl, ?_⟩
    intro p target value found goto
    obtain ⟨under, rfl, spells'⟩ := trimmed.reduced spells listed found goto value
    refine ⟨_, spells', ?_⟩
    intro takes
    rw [List.reverse_cons] at takes
    rw [List.reverse_append, List.reverse_reverse] at never
    exact never (.reduce found takes)

theorem Thinned.row (thinned : a.Thinned b) {frames : Frames V} {word : List Symbol}
    (spells : a.Spells frames word) (x : Symbol) :
    Thins (· = ·) (a.Futile x frames) (a.actions frames.state x) (b.actions frames.state x) := by
  refine thinsOfSublist (thinned.sublist _ _) (thinned.nodup _ _) ?_
  intro action listed missing
  obtain ⟨id, rfl, nowhere⟩ := thinned.gone listed missing
  refine ⟨id, rfl, ?_⟩
  intro p target value found goto
  obtain ⟨under, rfl, spells'⟩ := thinned.trimmed.reduced spells listed found goto value
  have walked := spells.walk thinned.trimmed
  rw [List.reverse_append, List.reverse_reverse] at walked
  refine ⟨_, spells', ?_⟩
  rw [List.reverse_cons]
  exact nowhere found walked

end Automaton

def Stack.Twin {V : Type} (s t : Stack V) : Prop := ∃ id, t = s.fork id

namespace Engine
open Table
variable {V : Type} [SemanticValue V] {e : Engine V} {b : Automaton}

def withTable (e : Engine V) (b : Automaton) : Engine V := { e with automaton := b }

def Sound (e : Engine V) (s : Stack V) : Prop :=
  (∃ word, e.automaton.Spells s.frames word) ∧ s.recovery.errorMode = false

theorem soundPreserved (trimmed : e.automaton.Trimmed)
    (made : e.reducers.length = e.automaton.grammar.size) (strict : e.options.errorRecovery = false)
    {m : Moment V} (known : e.automaton.terminal? m.token.kind = some m.terminal) :
    Round.Preserves e m e.Sound e.Sound (fun _ => True) (fun _ => False) where
  fork := fun _ _ h => h
  shift := fun s target h listed => ⟨(spellsPreserved trimmed made known).shift s target h.1 listed, rfl⟩
  reduce := by
    intro s id after h listed reduced
    refine ⟨(spellsPreserved trimmed made known).reduce s id after h.1 listed reduced, ?_⟩
    obtain ⟨p, reducer, target, _, _, _, _, rfl⟩ := reduceSource reduced
    exact (settleErrorMode _ _ _ _).trans h.2
  fails := fun s id f h => (spellsPreserved trimmed made known).fails s id f h.1
  accept := fun _ _ _ => trivial
  goto := fun s target h => (spellsPreserved trimmed made known).goto s target h.1
  skip := by
    intro s h mode
    rw [h.2] at mode
    contradiction
  recover := by
    intro s after _ able
    rw [strict] at able
    contradiction

theorem reduceTwin (thinned : e.automaton.Thinned b) {s after : Stack V} {id : Nat}
    (h : e.reduce s id = .ok after) (number : Nat) :
    (e.withTable b).reduce (s.fork number) id = .ok (after.fork number) := by
  obtain ⟨p, reducer, target, found, made, covers, goto, rfl⟩ := reduceSource h
  have found' : b.production? id = some p := by
    rw [Automaton.production?, thinned.grammar]
    exact found
  have nonterminal := thinned.trimmed.wellFormed.lhsNonterminal p (List.mem_of_getElem? found)
  simp only [reduce, withTable, Stack.fork, found', made, covers, thinned.goto nonterminal goto, if_true]

end Engine

namespace Round
variable {V : Type} [SemanticValue V] {e : Engine V} {b : Automaton} {m : Moment V} {r r' : Round V}

theorem starveDies (strict : e.options.errorRecovery = false) {s : Stack V}
    (calm : s.recovery.errorMode = false) : starve e m r s = r.note e (.dies s.id s.state) := by
  simp [starve, mayRecover, strict, calm]

theorem actHand (r : Round V) (s : Stack V) (action : Action) :
    (act e m r s action).hand = r.hand ∧ (act e m r s action).todo = r.todo := by
  cases action with
  | reduce id =>
    simp only [act]
    split
    · exact ⟨rfl, rfl⟩
    · split
      · exact ⟨rfl, rfl⟩
      · exact ⟨rfl, rfl⟩
  | shift => exact ⟨rfl, rfl⟩
  | accept => exact ⟨rfl, rfl⟩
  | goto => exact ⟨rfl, rfl⟩

theorem stepRoom {s : Stack V} {action : Action} {todo : List Action} (held : r.hand = some s)
    (pending : r.todo = action :: todo) (room : (r.step e m).overflowed = false) :
    todo ≠ [] → r.others < e.stackLimit := by
  intro several
  obtain ⟨other, todo, rfl⟩ := List.exists_cons_of_ne_nil several
  rw [stepFork held pending, forkAct] at room
  split at room
  · cases room
  · rename_i free
    exact Nat.lt_of_not_le free

theorem stepTakes {s : Stack V} {action : Action} {todo : List Action} (held : r.hand = some s)
    (pending : r.todo = action :: todo) (room : todo ≠ [] → r.others < e.stackLimit) :
    (∃ hand rest nextId log number, r.step e m =
        act e m { r with hand, todo := rest, nextId, log } (s.fork number) action) ∧
      (todo = [] ∧ (r.step e m).hand = none ∨
        todo ≠ [] ∧ (r.step e m).hand = some s ∧ (r.step e m).todo = todo) := by
  cases todo with
  | nil =>
    rw [stepAct held pending]
    exact ⟨⟨none, r.todo, r.nextId, r.log, s.id, rfl⟩, .inl ⟨rfl, (actHand _ _ _).1⟩⟩
  | cons other todo =>
    have free : ¬ e.stackLimit ≤ ({ r with todo := other :: todo } : Round V).others :=
      Nat.not_le_of_lt (room (List.cons_ne_nil _ _))
    rw [stepFork held pending, forkAct, if_neg free]
    refine ⟨⟨r.hand, _, _, _, r.nextId, rfl⟩, .inr ⟨List.cons_ne_nil _ _, ?_, (actHand _ _ _).2⟩⟩
    exact (actHand _ _ _).1.trans held

structure Abreast (e : Engine V) (x : Symbol) (r r' : Round V) : Prop where
  waiting : Thins Stack.Twin (fun s => e.automaton.Hopeless x s.frames) r.waiting.toList r'.waiting.toList
  moved : List.Forall₂ Stack.Twin r.moved.toList r'.moved.toList
  accepted : r'.accepted.toList = r.accepted.toList
  sane : r'.fault = none

omit [SemanticValue V] in
theorem Abreast.others (h : Abreast e m.terminal r r') : r'.others ≤ r.others := by
  have waiting := h.waiting.length
  have moved := h.moved.length_eq
  simp only [Round.others, Queue.sizeLength]
  omega

theorem Abreast.act (thinned : e.automaton.Thinned b) (h : Abreast e m.terminal r r') {s t : Stack V}
    (twin : s.Twin t) {action : Action} (sane : (Round.act e m r s action).fault = none) :
    Abreast e m.terminal (Round.act e m r s action) (Round.act (e.withTable b) m r' t action) := by
  obtain ⟨number, rfl⟩ := twin
  cases action with
  | shift target =>
    refine ⟨h.waiting, ?_, h.accepted, h.sane⟩
    simp only [Round.act, Round.moveOn, Round.note, Queue.toListPush]
    exact List.rel_append h.moved (.cons ⟨number, rfl⟩ .nil)
  | accept =>
    refine ⟨h.waiting, h.moved, ?_, h.sane⟩
    simp only [Round.act, Round.note, Queue.toListPush, h.accepted]
    rfl
  | goto target => cases sane
  | reduce id =>
    have limit : (e.withTable b).reductionLimit (s.fork number).countReduction =
        e.reductionLimit s.countReduction := by
      simp only [Engine.reductionLimit, Engine.withTable, thinned.size]
      rfl
    have count : (s.fork number).countReduction.reductions = s.countReduction.reductions := rfl
    simp only [Round.act, limit, count] at sane ⊢
    split
    · exact ⟨h.waiting, h.moved, h.accepted, h.sane⟩
    · rename_i within
      rw [if_neg within] at sane
      cases reduced : e.reduce s.countReduction id with
      | error fault =>
        rw [reduced] at sane
        cases sane
      | ok after =>
        have same : (e.withTable b).reduce (s.fork number).countReduction id = .ok (after.fork number) :=
          Engine.reduceTwin thinned reduced number
        rw [same]
        refine ⟨?_, h.moved, h.accepted, h.sane⟩
        simp only [Round.enqueue, Round.note, Queue.toListPush]
        exact h.waiting.append (.keep ⟨number, rfl⟩ .nil)

theorem Abreast.futile (h : Abreast e m.terminal r r') {s : Stack V} {action : Action}
    (futile : e.automaton.Futile m.terminal s.frames action) :
    Abreast e m.terminal (Round.act e m r s action) r' := by
  obtain ⟨id, rfl, leads⟩ := futile
  simp only [Round.act]
  split
  · exact ⟨h.waiting, h.moved, h.accepted, h.sane⟩
  · split
    · rename_i after reduced
      have hopeless : e.automaton.Hopeless m.terminal after.frames := by
        obtain ⟨p, reducer, target, found, _, _, goto, rfl⟩ := Engine.reduceSource reduced
        exact leads p target _ found goto
      refine ⟨?_, h.moved, h.accepted, h.sane⟩
      simp only [Round.enqueue, Round.note, Queue.toListPush]
      simpa using h.waiting.append (.drop hopeless .nil)
    · exact ⟨h.waiting, h.moved, h.accepted, h.sane⟩

/-- The stacks in hand. Once the second round has taken all of its actions, only futile ones are
left to the first. -/
inductive Grips (a : Automaton) (x : Symbol) (r r' : Round V) : Prop
  | idle (hand : r.hand = none) (hand' : r'.hand = none)
  | both {s t : Stack V} (hand : r.hand = some s) (hand' : r'.hand = some t) (twin : s.Twin t)
      (todo : Thins (· = ·) (a.Futile x s.frames) r.todo r'.todo) (busy : r'.todo ≠ [])
  | alone {s : Stack V} (hand : r.hand = some s) (hand' : r'.hand = none)
      (todo : ∀ action ∈ r.todo, a.Futile x s.frames action)

structure Shadows (e : Engine V) (m : Moment V) (r r' : Round V) : Prop where
  keeps : r.Keeps e m e.Sound e.Sound (fun _ => True) (fun _ => False)
  abreast : Abreast e m.terminal r r'
  grips : Grips e.automaton m.terminal r r'

omit [SemanticValue V] in
theorem Shadows.sane (h : Shadows e m r r') : r.fault = none := by
  cases fault : r.fault with
  | none => rfl
  | some f => exact (h.keeps.fault f fault).elim

omit [SemanticValue V] in
theorem workingIdle (sane : r.fault = none) (idle : r.hand = none) :
    r.isDone e = false ↔ r.waiting.toList ≠ [] ∧ (e.mode = .first → r.accepted.toList = []) := by
  simp [isDone, sane, idle, ← Queue.isEmptyIff]

omit [SemanticValue V] in
theorem workingHand (sane : r.fault = none) {s : Stack V} (held : r.hand = some s) :
    r.isDone e = false := by
  simp [isDone, sane, held]

omit [SemanticValue V] in
theorem Shadows.idle (h : Shadows e m r r') (idle : r.hand = none) : r'.hand = none := by
  cases h.grips with
  | idle _ hand' => exact hand'
  | both hand => cases idle.symm.trans hand
  | alone hand => cases idle.symm.trans hand

omit [SemanticValue V] in
theorem Shadows.done (h : Shadows e m r r') (done : r.isDone e = true) : r'.isDone (e.withTable b) = true := by
  have idle := Engine.handOfDone done h.sane
  by_contra working
  simp only [Bool.not_eq_true] at working
  obtain ⟨more, unfinished⟩ := (workingIdle h.abreast.sane (h.idle idle)).1 working
  have before : r.isDone e = false := by
    refine (workingIdle h.sane idle).2 ⟨?_, fun first => h.abreast.accepted ▸ unfinished first⟩
    intro empty
    have waiting := h.abreast.waiting.length
    rw [empty] at waiting
    exact more (List.length_eq_zero_iff.1 (Nat.le_zero.1 waiting))
  rw [done] at before
  contradiction

theorem runPick (strict : e.options.errorRecovery = false) (sane : r.fault = none) (idle : r.hand = none)
    (working : r.isDone e = false) {s : Stack V} {rest : Queue (Stack V)}
    (popped : r.waiting.pop? = some (s, rest)) (calm : s.recovery.errorMode = false) :
    ∃ hand log, r.run e m =
        { r with hand, log, todo := e.automaton.actions s.state m.terminal, waiting := rest }.run e m ∧
      (e.automaton.actions s.state m.terminal = [] ∧ hand = none ∨
        e.automaton.actions s.state m.terminal ≠ [] ∧ hand = some s) := by
  rw [runStep working, stepPick idle popped]
  cases row : e.automaton.actions s.state m.terminal with
  | nil =>
    have held : ({ r with hand := some s, todo := [], waiting := rest } : Round V).isDone e = false := by
      simp [isDone, sane]
    rw [runStep held, stepStarve rfl rfl, starveDies strict calm]
    exact ⟨none, _, rfl, .inl ⟨rfl, rfl⟩⟩
  | cons action others => exact ⟨some s, _, rfl, .inr ⟨List.cons_ne_nil _ _, rfl⟩⟩

theorem Shadows.pick (thinned : e.automaton.Thinned b) (strict : e.options.errorRecovery = false)
    (terminal : isTerminal m.terminal = true) (h : Shadows e m r r') (idle : r.hand = none)
    (idle' : r'.hand = none) (working : r.isDone e = false) :
    ∃ r'', r'.run (e.withTable b) m = r''.run (e.withTable b) m ∧ Abreast e m.terminal (r.step e m) r'' ∧
      Grips e.automaton m.terminal (r.step e m) r'' := by
  obtain ⟨more, unfinished⟩ := (workingIdle h.sane idle).1 working
  obtain ⟨waiting, moved, accepted, sane⟩ := h.abreast
  cases popped : r.waiting.pop? with
  | none => exact absurd ((Queue.popNoneIff _).1 popped) more
  | some entry =>
    obtain ⟨s, rest⟩ := entry
    rw [stepPick idle popped]
    have queue := Queue.toListOfPop popped
    obtain ⟨⟨word, spells⟩, calm⟩ := h.keeps.waiting s (by simp [queue])
    rw [queue] at waiting
    generalize queue' : r'.waiting.toList = list at waiting
    cases waiting with
    | drop hopeless fewer =>
      -- The second round has never had this stack, and goes on without it.
      refine ⟨r', rfl, ⟨queue' ▸ fewer, moved, accepted, sane⟩, .alone rfl idle' ?_⟩
      exact fun action listed => hopeless.futile thinned.trimmed terminal listed
    | @keep _ t _ list twin fewer =>
      have working' : r'.isDone (e.withTable b) = false :=
        (workingIdle sane idle').2 ⟨by simp [queue'], fun first => accepted.trans (unfinished first)⟩
      cases popped' : r'.waiting.pop? with
      | none =>
        rw [(Queue.popNoneIff _).1 popped'] at queue'
        contradiction
      | some entry =>
        obtain ⟨t', rest'⟩ := entry
        obtain ⟨rfl, rfl⟩ := List.cons.inj ((Queue.toListOfPop popped').symm.trans queue')
        obtain ⟨number, rfl⟩ := twin
        have row := thinned.row spells m.terminal
        obtain ⟨hand, log, ran, outcome⟩ :=
          runPick (e := e.withTable b) (m := m) strict sane idle' working' popped' calm
        refine ⟨_, ran, ⟨fewer, moved, accepted, sane⟩, ?_⟩
        rcases outcome with ⟨empty, dropped⟩ | ⟨busy, held⟩
        · -- Lookahead rules out the whole row, so the twin is dropped before the stack is.
          rw [show b.actions s.frames.state m.terminal = [] from empty] at row
          exact .alone rfl dropped row.allGone
        · exact .both rfl held ⟨number, rfl⟩ row busy

theorem Shadows.waste (h : Shadows e m r r') {s : Stack V} {action : Action} {todo : List Action}
    (held : r.hand = some s) (pending : r.todo = action :: todo)
    (futile : e.automaton.Futile m.terminal s.frames action) (room : (r.step e m).overflowed = false) :
    Abreast e m.terminal (r.step e m) r' ∧
      (todo = [] ∧ (r.step e m).hand = none ∨
        todo ≠ [] ∧ (r.step e m).hand = some s ∧ (r.step e m).todo = todo) := by
  obtain ⟨⟨hand, rest, nextId, log, number, taken⟩, outcome⟩ :=
    stepTakes (m := m) held pending (stepRoom held pending room)
  have left : Abreast e m.terminal { r with hand, todo := rest, nextId, log } r' :=
    ⟨h.abreast.waiting, h.abreast.moved, h.abreast.accepted, h.abreast.sane⟩
  refine ⟨?_, outcome⟩
  rw [taken]
  exact left.futile futile

theorem Shadows.finish (strict : e.options.errorRecovery = false) (h : Shadows e m r r') {s : Stack V}
    (held : r.hand = some s) (idle' : r'.hand = none)
    (futile : ∀ action ∈ r.todo, e.automaton.Futile m.terminal s.frames action)
    (room : (r.step e m).overflowed = false) :
    Abreast e m.terminal (r.step e m) r' ∧ Grips e.automaton m.terminal (r.step e m) r' := by
  cases pending : r.todo with
  | nil =>
    rw [stepStarve held pending, starveDies strict (h.keeps.hand s held).1.2]
    exact ⟨⟨h.abreast.waiting, h.abreast.moved, h.abreast.accepted, h.abreast.sane⟩, .idle rfl idle'⟩
  | cons action todo =>
    rw [pending] at futile
    obtain ⟨first, later⟩ := List.forall_mem_cons.1 futile
    obtain ⟨abreast, ⟨_, hand⟩ | ⟨_, hand, rest⟩⟩ := h.waste held pending first room
    · exact ⟨abreast, .idle hand idle'⟩
    · exact ⟨abreast, .alone hand idle' (rest ▸ later)⟩

theorem Shadows.work (thinned : e.automaton.Thinned b) (h : Shadows e m r r') {s t : Stack V}
    (held : r.hand = some s) (held' : r'.hand = some t) (twin : s.Twin t)
    (row : Thins (· = ·) (e.automaton.Futile m.terminal s.frames) r.todo r'.todo) (busy : r'.todo ≠ [])
    (room : (r.step e m).overflowed = false) (sane : (r.step e m).fault = none) :
    ∃ r'', r'.run (e.withTable b) m = r''.run (e.withTable b) m ∧ Abreast e m.terminal (r.step e m) r'' ∧
      Grips e.automaton m.terminal (r.step e m) r'' := by
  generalize pending : r.todo = todo at row
  generalize pending' : r'.todo = todo' at row busy
  cases row with
  | nil => exact absurd rfl busy
  | drop futile others =>
    obtain ⟨abreast, ⟨rfl, _⟩ | ⟨_, hand, rest⟩⟩ := h.waste held pending futile room
    · cases others
      exact absurd rfl busy
    · exact ⟨r', rfl, abreast, .both hand held' twin (by rwa [rest, pending']) (pending' ▸ busy)⟩
  | @keep action _ todo todo' same others =>
    subst same
    obtain ⟨number, rfl⟩ := twin
    have free := stepRoom held pending room
    -- With fewer stacks around, there is room for a fork wherever there was before.
    have free' : todo' ≠ [] → r'.others < (e.withTable b).stackLimit := by
      intro several
      refine Nat.lt_of_le_of_lt h.abreast.others (free ?_)
      rintro rfl
      cases others
      exact several rfl
    obtain ⟨⟨hand, rest, nextId, log, i, taken⟩, outcome⟩ := stepTakes (m := m) held pending free
    obtain ⟨⟨hand', rest', nextId', log', j, taken'⟩, outcome'⟩ :=
      stepTakes (m := m) (e := e.withTable b) held' pending' free'
    have together : Abreast e m.terminal { r with hand, todo := rest, nextId, log }
        { r' with hand := hand', todo := rest', nextId := nextId', log := log' } :=
      ⟨h.abreast.waiting, h.abreast.moved, h.abreast.accepted, h.abreast.sane⟩
    refine ⟨_, runStep (workingHand h.abreast.sane held'), ?_, ?_⟩
    · rw [taken] at sane ⊢
      rw [taken']
      exact together.act thinned ⟨j, rfl⟩ sane
    · rcases outcome' with ⟨rfl, none'⟩ | ⟨several, some', later'⟩
      · rcases outcome with ⟨_, none⟩ | ⟨_, some, later⟩
        · exact .idle none none'
        · exact .alone some none' (later ▸ others.allGone)
      · rcases outcome with ⟨rfl, _⟩ | ⟨_, some, later⟩
        · cases others
          exact absurd rfl several
        · exact .both some some' ⟨number, rfl⟩ (by rwa [later, later']) (later' ▸ several)

variable (thinned : e.automaton.Thinned b) (made : e.reducers.length = e.automaton.grammar.size)
  (strict : e.options.errorRecovery = false)
  (known : e.automaton.terminal? m.token.kind = some m.terminal)
include thinned made strict known

theorem Shadows.step (h : Shadows e m r r') (working : r.isDone e = false)
    (room : (r.step e m).overflowed = false) :
    ∃ r'', r'.run (e.withTable b) m = r''.run (e.withTable b) m ∧ Shadows e m (r.step e m) r'' := by
  have keeps := keepsStep (Engine.soundPreserved thinned.trimmed made strict known) h.keeps
  -- The second round takes no step here, one, or two where it picks up a stack without actions.
  cases h.grips with
  | idle hand hand' =>
    have terminal := Grammar.isTerminalOfMem (Automaton.terminalMember known)
    obtain ⟨r'', ran, abreast, grips⟩ := h.pick thinned strict terminal hand hand' working
    exact ⟨r'', ran, keeps, abreast, grips⟩
  | both hand hand' twin todo busy =>
    have sane : (r.step e m).fault = none := Option.eq_none_iff_forall_ne_some.2 keeps.fault
    obtain ⟨r'', ran, abreast, grips⟩ := h.work thinned hand hand' twin todo busy room sane
    exact ⟨r'', ran, keeps, abreast, grips⟩
  | alone hand hand' todo =>
    obtain ⟨abreast, grips⟩ := h.finish strict hand hand' todo room
    exact ⟨r', rfl, keeps, abreast, grips⟩

theorem Shadows.run {r' : Round V} (h : Shadows e m r r') (room : (r.run e m).overflowed = false) :
    Shadows e m (r.run e m) (r'.run (e.withTable b) m) := by
  induction r using Round.run.induct e m generalizing r' with
  | case1 r done =>
    rw [runOfDone done, runOfDone (h.done done)]
    exact h
  | case2 r working ih =>
    simp only [Bool.not_eq_true] at working
    rw [runStep working] at room ⊢
    have now := (remembersRun e m (r.step e m)).overflowed room
    obtain ⟨r'', ran, shadows⟩ := h.step thinned made strict known working now
    rw [ran]
    exact ih shadows room

end Round

namespace Engine
variable {V : Type} {e : Engine V} {b : Automaton} {r r' : Round V}

structure Level (e : Engine V) (r r' : Round V) : Prop where
  sound : ∀ s ∈ r.moved.toList, e.Sound s
  moved : List.Forall₂ Stack.Twin r.moved.toList r'.moved.toList
  accepted : r'.accepted.toList = r.accepted.toList
  sane : r.fault = none
  sane' : r'.fault = none
  idle : r.hand = none
  idle' : r'.hand = none

theorem levelInitial (e : Engine V) : e.Level Round.initial Round.initial := by
  refine ⟨?_, ?_, rfl, rfl, rfl, rfl, rfl⟩
  · intro s first
    simp only [Round.initial, Queue.toListOfList, List.mem_singleton] at first
    rw [first]
    exact ⟨⟨[], .bottom⟩, rfl⟩
  · exact .cons ⟨0, rfl⟩ .nil

theorem shadowsLevel {m : Moment V} (h : Round.Shadows e m r r') (done : r.isDone e = true) :
    e.Level r r' := by
  have idle := handOfDone done h.sane
  exact ⟨h.keeps.moved, h.abreast.moved, h.abreast.accepted, h.sane, h.abreast.sane, idle, h.idle idle⟩

theorem Level.opens (h : e.Level r r') (b : Automaton) (m : Moment V) :
    Round.Shadows e m (r.openToken e m) (r'.openToken (e.withTable b) m) := by
  refine ⟨⟨?_, ?_, ?_, ?_, ?_⟩, ⟨?_, .nil, h.accepted, h.sane'⟩, .idle h.idle h.idle'⟩
  · intro s held
    cases h.idle.symm.trans held
  · intro s inside
    simp only [Round.openToken, Round.note, Queue.toListOfList, List.mem_map] at inside
    obtain ⟨t, inside, rfl⟩ := inside
    exact h.sound t inside
  · exact fun s inside => absurd inside List.not_mem_nil
  · exact fun _ _ => trivial
  · intro f fault
    cases h.sane.symm.trans fault
  · simp only [Round.openToken, Round.note, Queue.toListOfList]
    refine thinsOfForall (List.forall₂_map_left_iff.2 (List.forall₂_map_right_iff.2 ?_))
    refine h.moved.imp ?_
    rintro s t ⟨number, rfl⟩
    exact ⟨number, rfl⟩

theorem Level.closes (h : e.Level r r') : e.Level (r.closeToken e) (r'.closeToken (e.withTable b)) := by
  refine ⟨fun s inside => h.sound s (closeTokenSubset e r inside), ?_, by simpa using h.accepted,
    by simpa using h.sane, by simpa using h.sane', by simpa using h.idle, by simpa using h.idle'⟩
  have size : r'.moved.size = r.moved.size := by
    rw [Queue.sizeLength, Queue.sizeLength, h.moved.length_eq]
  unfold Round.closeToken
  by_cases crowded : e.options.maxStacks < r.moved.size
  · have crowded' : (e.withTable b).options.maxStacks < r'.moved.size := size.symm ▸ crowded
    rw [if_pos crowded, if_pos crowded']
    simp only [Round.note, Queue.toListOfList]
    exact List.forall₂_take _ h.moved
  · have fits' : ¬ (e.withTable b).options.maxStacks < r'.moved.size := size.symm ▸ crowded
    rw [if_neg crowded, if_neg fits']
    exact h.moved

theorem Level.exhausted (h : e.Level r r') (seen : List (Token V)) (token : Token V)
    (rest : List (Token V)) : exhausted seen token rest r' = exhausted seen token rest r := by
  simp only [Engine.exhausted, Queue.isEmpty, Queue.sizeLength, h.accepted]

variable [SemanticValue V]

theorem Level.after (h : e.Level r r') {m : Moment V} {seen rest : List (Token V)}
    (later : ∀ {seen : List (Token V)} {r r' : Round V}, e.Level r r' →
      (e.runFrom seen r rest).last.overflowed = false →
      ((e.withTable b).runFrom seen r' rest).result = (e.runFrom seen r rest).result)
    (room : (e.after seen m rest r).last.overflowed = false) :
    ((e.withTable b).after seen m rest r').result = (e.after seen m rest r).result := by
  have accepted : r'.accepted.isEmpty = r.accepted.isEmpty := by
    simp only [Queue.isEmpty, Queue.sizeLength, h.accepted]
  have moved : r'.moved.isEmpty = r.moved.isEmpty := by
    simp only [Queue.isEmpty, Queue.sizeLength, h.moved.length_eq]
  simp only [Engine.after, h.sane, h.sane', accepted, moved, withTable] at room ⊢
  split
  · exact congrArg Except.ok h.accepted
  · rename_i searching
    rw [if_neg searching] at room
    split
    · exact h.exhausted _ _ _
    · rename_i alive
      rw [if_neg alive] at room
      exact later h.closes room

theorem runFromPruned (thinned : e.automaton.Thinned b)
    (made : e.reducers.length = e.automaton.grammar.size) (strict : e.options.errorRecovery = false)
    (rest : List (Token V)) :
    ∀ {seen : List (Token V)} {r r' : Round V}, e.Level r r' →
      (e.runFrom seen r rest).last.overflowed = false →
      ((e.withTable b).runFrom seen r' rest).result = (e.runFrom seen r rest).result := by
  induction rest with
  | nil =>
    intro seen r r' level _
    unfold runFrom
    split
    · exact level.exhausted _ _ _
    · exact congrArg Except.ok level.accepted
  | cons token rest ih =>
    intro seen r r' level room
    have same : (e.withTable b).automaton.terminal? token.kind = e.automaton.terminal? token.kind := by
      simp only [withTable, Automaton.terminal?, thinned.grammar]
    cases known : e.automaton.terminal? token.kind with
    | none =>
      rw [runFromUnknown known, runFromUnknown (same.trans known)]
    | some x =>
      rw [runFromKnown known] at room ⊢
      rw [runFromKnown (same.trans known)]
      have calm := (remembersAfter (e.remembersFrom rest) seen _).overflowed room
      have shadows := (level.opens b ⟨token, x, seen.length⟩).run thinned made strict known calm
      exact (shadowsLevel shadows (Round.runDone e _ _)).after ih room

theorem pruningInvisible {g : Grammar} (built : g.Built) (e : Engine V)
    (plain : Automaton.build g ⟨false, false⟩ = .ok e.automaton) {pruned : Automaton}
    (looked : Automaton.build g ⟨true, false⟩ = .ok pruned) (made : e.reducers.length = g.size)
    (strict : e.options.errorRecovery = false) (tokens : List (Token V))
    (room : (e.run tokens).last.overflowed = false) :
    ({ e with automaton := pruned }.run tokens).result = (e.run tokens).result := by
  have thinned := Automaton.thinnedBuild built plain looked
  obtain ⟨rfl, _⟩ := Automaton.buildSource plain
  exact runFromPruned thinned made strict _ (levelInitial e) room

theorem straySumPruned :
    ∃ plain pruned : Parser Value, ParserDraft.plainSums.finalize ⟨false, false⟩ = .ok plain ∧
      ParserDraft.plainSums.finalize ⟨true, false⟩ = .ok pruned ∧
      pruned.automaton.states ≠ plain.automaton.states ∧
      (((plain.withOptions { errorRecovery := false }).engine .all).run straySum).last.overflowed = false ∧
      (((pruned.withOptions { errorRecovery := false }).engine .all).run straySum).result =
        (((plain.withOptions { errorRecovery := false }).engine .all).run straySum).result := by
  have ran : ((ParserDraft.plainSums.finalize ⟨false, false⟩).toOption.any fun plain =>
      !(((plain.withOptions { errorRecovery := false }).engine .all).run straySum).last.overflowed &&
        (ParserDraft.plainSums.finalize ⟨true, false⟩).toOption.any fun pruned =>
          decide (pruned.automaton.states ≠ plain.automaton.states)) = true := by decide +kernel
  obtain ⟨plain, finished, ran⟩ := okOfAny ran
  rw [Bool.and_eq_true] at ran
  obtain ⟨room, other⟩ := ran
  obtain ⟨pruned, finished', other⟩ := okOfAny other
  simp only [Bool.not_eq_true', decide_eq_true_eq] at room other
  obtain ⟨g, a, built, table, rfl⟩ := ParserDraft.finalizeSource finished
  obtain ⟨g', a', built', table', rfl⟩ := ParserDraft.finalizeSource finished'
  obtain rfl := Except.ok.inj (built.symm.trans built')
  refine ⟨_, _, finished, finished', other, room, ?_⟩
  exact pruningInvisible ⟨_, built⟩
    (((ParserDraft.plainSums.toParser g a).withOptions { errorRecovery := false }).engine .all) table table'
    (ParserDraft.plainSums.reducersLength g) rfl straySum room

end Engine
end ForkingLR
