import ForkingLR.Proofs.Engine.Turns

/-! What a round has still to explore. The stacks at hand, each with the turns behind it, divide up
the histories that are aimed at, such as the ways to complete the input: none can lead to what another
leads to, and together they lead to everything. A step hands a share on or divides it by the actions of
a row, so at the end what was accepted is every completion, once. -/
namespace ForkingLR

def Apart (h h' : List Turn) : Prop := ¬ h <:+ h' ∧ ¬ h' <:+ h

theorem Apart.symm {h h' : List Turn} (apart : Apart h h') : Apart h' h := ⟨apart.2, apart.1⟩

theorem Apart.cons {own h : List Turn} (apart : Apart own h) (turn : Turn) : Apart (turn :: own) h := by
  constructor
  · exact fun past => apart.1 ((List.suffix_cons turn own).trans past)
  · intro past
    rcases List.suffix_cons_iff.1 past with rfl | past
    · exact apart.1 (List.suffix_cons turn own)
    · exact apart.2 past

theorem apartSiblings {own : List Turn} {turn turn' : Turn} (different : turn ≠ turn') :
    Apart (turn :: own) (turn' :: own) := by
  constructor
  · exact fun past => different (List.cons.inj (past.eq_of_length rfl)).1
  · exact fun past => different (List.cons.inj (past.eq_of_length rfl)).1.symm

namespace Automaton
open Table
variable {a : Automaton}

theorem Unresolved.turnsNodup (trimmed : a.Trimmed) (unresolved : a.Unresolved) {s : Nat} {x : Symbol}
    (terminal : isTerminal x = true) : ((a.actions s x).map Action.turn).Nodup := by
  have ordinary {t : Nat} (listed : .goto t ∈ a.actions s x) : False := by
    cases trimmed.offers listed with
    | goto nonterminal _ =>
      rw [terminal] at nonterminal
      contradiction
  refine (unresolved.nodup s x).map_on ?_
  intro action ha other hb same
  cases action with
  | goto => exact (ordinary ha).elim
  | shift t =>
    cases other with
    | goto => exact (ordinary hb).elim
    | shift t' => rw [movesUnique (trimmed.shiftMoves ha) (trimmed.shiftMoves hb)]
    | reduce => cases same
    | accept => cases same
  | reduce id =>
    cases other with
    | goto => exact (ordinary hb).elim
    | reduce id' => rw [Turn.reduce.inj same]
    | shift => cases same
    | accept => cases same
  | accept =>
    cases other with
    | goto => exact (ordinary hb).elim
    | accept => rfl
    | shift => cases same
    | reduce => cases same

end Automaton

namespace Engine
open Table
variable {V : Type}

structure Calm (r : Round V) : Prop where
  room : r.overflowed = false
  acyclic : r.cycled = false

theorem calmBefore {r r' : Round V} (h : r.Remembers r') (calm : Calm r') : Calm r :=
  ⟨h.overflowed calm.room, h.cycled calm.acyclic⟩

variable [SemanticValue V] {e : Engine V} {input : List (Token V)}

structure Divides (goal : List Turn → Prop) (shares : List (List Turn)) : Prop where
  apart : shares.Pairwise Apart
  whole : ∀ {turns}, goal turns → ∃ h ∈ shares, h <:+ turns

theorem Divides.perm {goal : List Turn → Prop} {shares shares' : List (List Turn)}
    (h : Divides goal shares) (perm : shares.Perm shares') : Divides goal shares' := by
  refine ⟨(perm.pairwise_iff Apart.symm).1 h.apart, ?_⟩
  intro turns aimed
  obtain ⟨k, inside, past⟩ := h.whole aimed
  exact ⟨k, perm.mem_iff.1 inside, past⟩

theorem Divides.split {goal : List Turn → Prop} {own : List Turn} {shares : List (List Turn)}
    {row : List Turn} (h : Divides goal (own :: shares)) (nodup : row.Nodup)
    (next : ∀ {turns}, goal turns → own <:+ turns → ∃ turn ∈ row, turn :: own <:+ turns) :
    Divides goal (row.map (· :: own) ++ shares) := by
  obtain ⟨others, rest⟩ := List.pairwise_cons.1 h.apart
  refine ⟨List.pairwise_append.2 ⟨?_, rest, ?_⟩, ?_⟩
  · exact List.pairwise_map.2 (nodup.imp apartSiblings)
  · intro k inside k' there
    obtain ⟨turn, _, rfl⟩ := List.mem_map.1 inside
    exact (others k' there).cons turn
  · intro turns aimed
    obtain ⟨k, inside, past⟩ := h.whole aimed
    rcases List.mem_cons.1 inside with rfl | inside
    · obtain ⟨turn, listed, past⟩ := next aimed past
      exact ⟨_, List.mem_append_left _ (List.mem_map_of_mem listed), past⟩
    · exact ⟨k, List.mem_append_right _ inside, past⟩

theorem Divides.distinct {goal : List Turn → Prop} {shares completed : List (List Turn)}
    (h : Divides goal (shares ++ completed.map (.accept :: ·))) : completed.Nodup := by
  have apart := (List.pairwise_append.1 h.apart).2.1
  have distinct : (completed.map (Turn.accept :: ·)).Nodup := by
    refine apart.imp ?_
    rintro k k' apart rfl
    exact apart.1 List.suffix_rfl
  exact distinct.of_map

inductive Led (e : Engine V) (input : List (Token V)) : List Turn → Prop
  | path {turns : List Turn} {frames : Frames V} {trees : List (Tree V)} {rest : List (Token V)}
      (path : e.Path input turns frames trees rest) : Led e input turns
  | accept {turns : List Turn} {frames : Frames V} {trees : List (Tree V)} {token : Token V}
      {rest : List (Token V)} {x : Symbol} (path : e.Path input turns frames trees (token :: rest))
      (known : e.automaton.terminal? token.kind = some x)
      (listed : .accept ∈ e.automaton.actions frames.state x) : Led e input (.accept :: turns)

theorem Path.nextListed (trimmed : e.automaton.Trimmed) {own turns : List Turn} {turn : Turn}
    {frames frames' : Frames V} {trees trees' : List (Tree V)} {token : Token V}
    {rest rest' : List (Token V)} {x : Symbol} (path : e.Path input own frames trees (token :: rest))
    (known : e.automaton.terminal? token.kind = some x)
    (whole : e.Path input turns frames' trees' rest') (next : turn :: own <:+ turns) :
    turn ∈ (e.automaton.actions frames.state x).map Action.turn := by
  obtain ⟨_, _, _, step, _⟩ := whole.earlier next
  cases step with
  | shift before known' listed =>
    obtain ⟨rfl, _, same⟩ := path.unique trimmed before
    cases same
    obtain rfl := Option.some.inj (known.symm.trans known')
    exact List.mem_map_of_mem (f := Action.turn) listed
  | reduce before known' listed =>
    obtain ⟨rfl, _, same⟩ := path.unique trimmed before
    cases same
    obtain rfl := Option.some.inj (known.symm.trans known')
    exact List.mem_map_of_mem (f := Action.turn) listed

theorem Path.goesOn (trimmed : e.automaton.Trimmed) {own turns : List Turn} {frames : Frames V}
    {trees : List (Tree V)} {token : Token V} {rest : List (Token V)} {x : Symbol}
    (path : e.Path input own frames trees (token :: rest))
    (known : e.automaton.terminal? token.kind = some x) (led : e.Led input turns)
    (past : own <:+ turns) (further : own ≠ turns) :
    ∃ turn ∈ (e.automaton.actions frames.state x).map Action.turn, turn :: own <:+ turns := by
  obtain ⟨front, rfl⟩ := past
  rcases List.eq_nil_or_concat front with rfl | ⟨front, turn, rfl⟩
  · exact absurd rfl further
  · have next : turn :: own <:+ front.concat turn ++ own := ⟨front, by simp⟩
    refine ⟨turn, ?_, next⟩
    generalize front.concat turn ++ own = turns at led next
    cases led with
    | path whole => exact path.nextListed trimmed known whole next
    | accept whole known' accepts =>
      rcases List.suffix_cons_iff.1 next with same | next
      · cases same
        obtain ⟨rfl, _, same⟩ := path.unique trimmed whole
        cases same
        obtain rfl := Option.some.inj (known.symm.trans known')
        exact List.mem_map_of_mem (f := Action.turn) accepts
      · exact path.nextListed trimmed known whole next

structure Took (e : Engine V) (input rest : List (Token V)) (turns : List Turn) (s : Stack V) : Prop where
  path : ∃ trees, e.Path input turns s.frames trees rest
  sound : s.recovery.errorMode = false
  unharmed : s.recovery.recovered = []

structure Took.Accepted (e : Engine V) (input : List (Token V)) (turns : List Turn)
    (a : ForkingLR.Accepted V) : Prop where
  completes : ∃ tree, e.Completes input turns tree a.value
  unharmed : a.errors = []

def ahead (r : Round V) (own : List Turn) : List (List Turn) :=
  if r.hand.isSome then r.todo.map (·.turn :: own) else []

/-- The histories of all stacks of a round: `queued` of those that wait, `passed` of those past the
token, `completed` of what was accepted. Those in `extra` are about to be handed on. -/
structure Explores (e : Engine V) (goal : List Turn → Prop) (input : List (Token V)) (m : Moment V)
    (rest : List (Token V)) (extra : List (List Turn)) (own : List Turn)
    (queued passed completed : List (List Turn)) (r : Round V) : Prop where
  sane : r.fault = none
  hand : ∀ s, r.hand = some s →
    e.Took input (m.token :: rest) own s ∧ r.todo ⊆ e.automaton.actions s.state m.terminal
  waiting : List.Forall₂ (e.Took input (m.token :: rest)) queued r.waiting.toList
  moved : List.Forall₂ (e.Took input rest) passed r.moved.toList
  accepted : List.Forall₂ (Took.Accepted e input) completed r.accepted.toList
  divides : Divides goal (extra ++ ahead r own ++ queued ++ passed ++ completed.map (.accept :: ·))

structure Fitted (e : Engine V) (input : List (Token V)) : Prop where
  trimmed : e.automaton.Trimmed
  distinct : ∀ s x, isTerminal x = true → ((e.automaton.actions s x).map Action.turn).Nodup
  reducers : e.reducers.length = e.automaton.grammar.size
  ordinary : ∀ token ∈ input, e.automaton.terminal? token.kind ≠ some .error

structure Equipped (e : Engine V) (input : List (Token V)) : Prop where
  trimmed : e.automaton.Trimmed
  unresolved : e.automaton.Unresolved
  reducers : e.reducers.length = e.automaton.grammar.size
  ordinary : ∀ token ∈ input, e.automaton.terminal? token.kind ≠ some .error

omit [SemanticValue V] in
theorem Equipped.fitted (equipped : e.Equipped input) : e.Fitted input :=
  ⟨equipped.trimmed, fun _ _ terminal => equipped.unresolved.turnsNodup equipped.trimmed terminal,
    equipped.reducers, equipped.ordinary⟩

structure Aims (e : Engine V) (input left : List (Token V)) (goal : List Turn → Prop) : Prop where
  led : ∀ {turns}, goal turns → e.Led input turns
  further : ∀ {turns frames trees rest}, goal turns → e.Path input turns frames trees rest →
    rest.length < left.length

/-- Recovery is impossible, or would come too early. -/
def Quiet (e : Engine V) (goal : List Turn → Prop) : Prop :=
  e.options.errorRecovery = true → e.automaton.grammar.usesError = true → ∃ turns, goal turns

structure Explorer (e : Engine V) (input : List (Token V)) : Prop where
  trimmed : e.automaton.Trimmed
  unresolved : e.automaton.Unresolved
  reducers : e.reducers.length = e.automaton.grammar.size
  mode : e.mode = .all
  recovery : e.options.errorRecovery = false
  ordinary : ∀ token ∈ input, e.automaton.terminal? token.kind ≠ some .error

omit [SemanticValue V] in
theorem Explorer.equipped (explorer : e.Explorer input) : e.Equipped input :=
  ⟨explorer.trimmed, explorer.unresolved, explorer.reducers, explorer.ordinary⟩

variable {goal : List Turn → Prop} {m : Moment V} {rest : List (Token V)} {own : List Turn}
  {queued passed completed : List (List Turn)} {r : Round V} {s : Stack V}

theorem Took.reduce (fitted : e.Fitted input) {id : Nat} {x : Symbol} {token : Token V}
    (took : e.Took input (token :: rest) own s) (known : e.automaton.terminal? token.kind = some x)
    (listed : .reduce id ∈ e.automaton.actions s.state x) :
    ∃ after, e.reduce s.countReduction id = .ok after ∧
      e.Took input (token :: rest) (.reduce id :: own) after := by
  have trimmed := fitted.trimmed
  obtain ⟨trees, path⟩ := took.path
  obtain ⟨word, _, grown, clean, _, _⟩ := path.grown trimmed fitted.ordinary
  obtain ⟨p, ready⟩ := trimmed.ready grown.spells listed
  have bound : id < e.reducers.length := by
    rw [fitted.reducers]
    exact (List.getElem?_eq_some_iff.1 ready.found).1
  obtain ⟨after, reduced⟩ := reduceReady (s := s.countReduction) ready bound
  refine ⟨after, reduced, ?_⟩
  obtain ⟨p', reducer, target, found, made, _, goto, rfl⟩ := reduceSource reduced
  obtain ⟨_, _, under, rfl, _⟩ := grown.handle trimmed listed found
  simp only [List.mem_append, List.mem_reverse, not_or] at clean
  have same (values : List V) (r : Recovery V) : arguments id p'.rhs values r = (values, r) := by
    simp [arguments, clean.1]
  simp only [same]
  exact ⟨⟨_, .reduce path known listed found made goto⟩, took.sound, took.unharmed⟩

theorem Took.accept (fitted : e.Fitted input) {x : Symbol} {token : Token V}
    (took : e.Took input (token :: rest) own s) (known : e.automaton.terminal? token.kind = some x)
    (listed : .accept ∈ e.automaton.actions s.state x) :
    Took.Accepted e input own ⟨s.topValue, s.recovery.recovered⟩ := by
  obtain ⟨trees, path⟩ := took.path
  obtain ⟨_, _, grown, _⟩ := path.grown fitted.trimmed fitted.ordinary
  obtain ⟨_, tree, rfl, _⟩ := grown.accepts fitted.trimmed listed
  exact ⟨⟨tree, _, token, rest, x, path, known, listed, rfl⟩, took.unharmed⟩

theorem Explores.act (fitted : e.Fitted input)
    (known : e.automaton.terminal? m.token.kind = some m.terminal) {action : Action}
    (h : e.Explores goal input m rest [action.turn :: own] own queued passed completed r)
    (took : e.Took input (m.token :: rest) own s)
    (listed : action ∈ e.automaton.actions s.state m.terminal)
    (calm : (Round.act e m r s action).cycled = false) :
    ∃ queued passed completed,
      e.Explores goal input m rest [] own queued passed completed (Round.act e m r s action) := by
  have divides := h.divides
  cases action with
  | shift target =>
    obtain ⟨trees, path⟩ := took.path
    refine ⟨queued, passed ++ [.shift :: own], completed, h.sane, h.hand, h.waiting, ?_, h.accepted,
      divides.perm ?_⟩
    · simp only [Round.act, Round.moveOn, Queue.toListPush]
      exact List.rel_append h.moved (.cons ⟨⟨_, .shift path known listed⟩, rfl, took.unharmed⟩ .nil)
    · show List.Perm ([.shift :: own] ++ ahead r own ++ _ ++ _ ++ _) (ahead r own ++ _ ++ _ ++ _)
      exact List.perm_iff_count.2 fun k => by simp only [List.count_append]; omega
  | reduce id =>
    obtain ⟨after, reduced, further⟩ := took.reduce fitted known listed
    have room : ¬ e.reductionLimit s.countReduction < s.countReduction.reductions := by
      intro exceeded
      simp [Round.act, exceeded, Round.note] at calm
    simp only [Round.act, if_neg room, reduced]
    refine ⟨queued ++ [.reduce id :: own], passed, completed, h.sane, h.hand, ?_, h.moved, h.accepted,
      divides.perm ?_⟩
    · simp only [Round.enqueue, Round.note, Queue.toListPush]
      exact List.rel_append h.waiting (.cons further .nil)
    · show List.Perm ([.reduce id :: own] ++ ahead r own ++ _ ++ _ ++ _) (ahead r own ++ _ ++ _ ++ _)
      exact List.perm_iff_count.2 fun k => by simp only [List.count_append]; omega
  | accept =>
    refine ⟨queued, passed, completed ++ [own], h.sane, h.hand, h.waiting, h.moved, ?_, divides.perm ?_⟩
    · simp only [Round.act, Queue.toListPush]
      exact List.rel_append h.accepted (.cons (took.accept fitted known listed) .nil)
    · show List.Perm ([.accept :: own] ++ ahead r own ++ _ ++ _ ++ _) (ahead r own ++ _ ++ _ ++ _)
      exact List.perm_iff_count.2 fun k => by
        simp only [List.map_append, List.map_cons, List.map_nil, List.count_append]; omega
  | goto target =>
    cases fitted.trimmed.offers listed with
    | goto nonterminal _ =>
      rw [Grammar.isTerminalOfMem (Automaton.terminalMember known)] at nonterminal
      contradiction

theorem Explores.forkAct (fitted : e.Fitted input)
    (known : e.automaton.terminal? m.token.kind = some m.terminal) {action : Action}
    (h : e.Explores goal input m rest [action.turn :: own] own queued passed completed r)
    (took : e.Took input (m.token :: rest) own s)
    (listed : action ∈ e.automaton.actions s.state m.terminal)
    (room : (Round.forkAct e m r s action).overflowed = false)
    (calm : (Round.forkAct e m r s action).cycled = false) :
    ∃ queued passed completed,
      e.Explores goal input m rest [] own queued passed completed (Round.forkAct e m r s action) := by
  unfold Round.forkAct at room calm ⊢
  split at room
  · simp [Round.note] at room
  · rename_i fits
    rw [if_neg fits] at calm ⊢
    have numbered : e.Explores goal input m rest [action.turn :: own] own queued passed completed
        ({ r with nextId := r.nextId + 1 }.note e (.forks s.id r.nextId)) :=
      ⟨h.sane, h.hand, h.waiting, h.moved, h.accepted, h.divides⟩
    exact numbered.act fitted known (s := s.fork r.nextId)
      ⟨took.path, took.sound, took.unharmed⟩ listed calm

theorem nilOfEmpty {α : Type} {R : List Turn → α → Prop} {shares : List (List Turn)} {q : Queue α}
    (h : List.Forall₂ R shares q.toList) (empty : q.isEmpty = true) : shares = [] := by
  rw [(Queue.isEmptyIff _).1 empty] at h
  exact List.forall₂_nil_right_iff.1 h

theorem Explores.starves (quiet : e.Quiet goal)
    (h : e.Explores goal input m rest [] own queued passed completed r) (held : r.hand = some s)
    (pending : r.todo = []) :
    Round.starve e m { r with hand := none } s =
      Round.note e { r with hand := none } (.dies s.id s.state) := by
  have sound := (h.hand s held).1.sound
  -- It could only recover where nothing else is left, and then there is nothing to aim at.
  have never : Round.mayRecover e m { r with hand := none } s = false := by
    by_contra may
    simp only [Round.mayRecover, Bool.not_eq_false, Bool.and_eq_true] at may
    obtain ⟨⟨⟨⟨⟨allowed, used⟩, waiting⟩, moved⟩, accepted⟩, _⟩ := may
    obtain ⟨turns, aimed⟩ := quiet allowed used
    obtain ⟨k, inside, _⟩ := h.divides.whole aimed
    rw [nilOfEmpty h.waiting waiting, nilOfEmpty h.moved moved, nilOfEmpty h.accepted accepted] at inside
    simp [ahead, held, pending] at inside
  simp [Round.starve, sound, never]

theorem Explores.pick (fitted : e.Fitted input) (aims : e.Aims input (m.token :: rest) goal)
    (known : e.automaton.terminal? m.token.kind = some m.terminal)
    (h : e.Explores goal input m rest [] own queued passed completed r) (idle : r.hand = none)
    {waiting : Queue (Stack V)} (popped : r.waiting.pop? = some (s, waiting)) :
    ∃ own queued, e.Explores goal input m rest [] own queued passed completed
      { r with hand := some s, todo := e.automaton.actions s.state m.terminal, waiting } := by
  have line := h.waiting
  have divides := h.divides
  rw [Queue.toListOfPop popped] at line
  simp only [ahead, idle] at divides
  obtain ⟨mine, others, took, rest, rfl⟩ := List.forall₂_cons_right_iff.1 line
  obtain ⟨trees, path⟩ := took.path
  refine ⟨mine, others, h.sane, ?_, rest, h.moved, h.accepted, ?_⟩
  · intro t held
    cases held
    exact ⟨took, List.Subset.refl _⟩
  · have terminal := Grammar.isTerminalOfMem (Automaton.terminalMember known)
    have split := Divides.split divides (fitted.distinct _ _ terminal) (by
      intro turns aimed past
      refine path.goesOn fitted.trimmed known (aims.led aimed) past ?_
      rintro rfl
      exact absurd (aims.further aimed path) (lt_irrefl _))
    simpa [ahead, Stack.state, List.map_map, Function.comp_def] using split

theorem Explores.work (fitted : e.Fitted input) (quiet : e.Quiet goal)
    (known : e.automaton.terminal? m.token.kind = some m.terminal)
    (h : e.Explores goal input m rest [] own queued passed completed r) (held : r.hand = some s)
    (room : (r.step e m).overflowed = false) (calm : (r.step e m).cycled = false) :
    ∃ queued passed completed, e.Explores goal input m rest [] own queued passed completed (r.step e m) := by
  have divides := h.divides
  obtain ⟨took, listed⟩ := h.hand s held
  cases pending : r.todo with
  | nil =>
    rw [Round.stepStarve held pending, h.starves quiet held pending]
    simp only [ahead, held, pending] at divides
    exact ⟨queued, passed, completed, h.sane, nofun, h.waiting, h.moved, h.accepted, divides⟩
  | cons action todo =>
    have member : action ∈ r.todo := by simp [pending]
    simp only [ahead, held, pending] at divides
    cases todo with
    | nil =>
      rw [Round.stepAct held pending] at calm ⊢
      have idle : e.Explores goal input m rest [action.turn :: own] own queued passed completed
          { r with hand := none } := ⟨h.sane, nofun, h.waiting, h.moved, h.accepted, divides⟩
      exact idle.act fitted known took (listed member) calm
    | cons other todo =>
      rw [Round.stepFork held pending] at room calm ⊢
      have fewer : other :: todo ⊆ r.todo := by simp [pending]
      have rest : e.Explores goal input m rest [action.turn :: own] own queued passed completed
          { r with todo := other :: todo } := by
        refine ⟨h.sane, ?_, h.waiting, h.moved, h.accepted, ?_⟩
        · intro t same
          obtain rfl := Option.some.inj (held.symm.trans same)
          exact ⟨took, List.Subset.trans fewer listed⟩
        · simp only [ahead, held]
          exact divides
      exact rest.forkAct fitted known took (listed member) room calm

theorem Explores.idle (h : e.Explores goal input m rest [] own queued passed completed r)
    (idle : r.hand = none) (popped : r.waiting.pop? = none) :
    e.Explores goal input m rest [] own [] passed completed { r with todo := [], waiting := .empty } := by
  have line := h.waiting
  rw [(Queue.popNoneIff _).1 popped] at line
  obtain rfl : queued = [] := List.forall₂_nil_right_iff.1 line
  refine ⟨h.sane, ?_, by simp, h.moved, h.accepted, ?_⟩
  · intro s held
    cases idle.symm.trans held
  · simpa [ahead, idle] using h.divides

theorem Explores.step (fitted : e.Fitted input) (quiet : e.Quiet goal)
    (aims : e.Aims input (m.token :: rest) goal)
    (known : e.automaton.terminal? m.token.kind = some m.terminal)
    (h : e.Explores goal input m rest [] own queued passed completed r)
    (room : (r.step e m).overflowed = false) (calm : (r.step e m).cycled = false) :
    ∃ own queued passed completed,
      e.Explores goal input m rest [] own queued passed completed (r.step e m) := by
  cases held : r.hand with
  | some s => exact ⟨own, h.work fitted quiet known held room calm⟩
  | none =>
    cases popped : r.waiting.pop? with
    | none =>
      rw [Round.stepIdle held popped]
      exact ⟨own, [], passed, completed, h.idle held popped⟩
    | some entry =>
      obtain ⟨s, waiting⟩ := entry
      rw [Round.stepPick held popped]
      obtain ⟨own, queued, explores⟩ := h.pick fitted aims known held popped
      exact ⟨own, queued, passed, completed, explores⟩

structure Rests (e : Engine V) (goal : List Turn → Prop) (input rest : List (Token V))
    (passed completed : List (List Turn)) (r : Round V) : Prop where
  sane : r.fault = none
  idle : r.hand = none
  moved : List.Forall₂ (e.Took input rest) passed r.moved.toList
  accepted : List.Forall₂ (Took.Accepted e input) completed r.accepted.toList
  divides : Divides goal (passed ++ completed.map (.accept :: ·))

theorem Rests.opens (h : e.Rests goal input (m.token :: rest) passed completed r) :
    e.Explores goal input m rest [] [] passed [] completed (r.openToken e m) := by
  refine ⟨h.sane, ?_, ?_, by simp [Round.openToken, Round.note], h.accepted, ?_⟩
  · intro s held
    have same : r.hand = some s := held
    simp [h.idle] at same
  · simp only [Round.openToken, Round.note, Queue.toListOfList, List.forall₂_map_right_iff]
    exact h.moved.imp fun _ _ took => ⟨took.path, took.sound, took.unharmed⟩
  · simpa [ahead, Round.openToken, Round.note, h.idle] using h.divides

theorem Explores.rests (h : e.Explores goal input m rest [] own queued passed completed r)
    (done : r.isDone e = true) (searched : ¬ (e.mode = .first ∧ r.accepted.isEmpty = false)) :
    e.Rests goal input rest passed completed r := by
  have idle := handOfDone done h.sane
  obtain rfl := nilOfEmpty h.waiting (waitingOfDone done h.sane searched)
  exact ⟨h.sane, idle, h.moved, h.accepted, by simpa [ahead, idle] using h.divides⟩

theorem Rests.closes (h : e.Rests goal input rest passed completed r) (calm : Calm (r.closeToken e)) :
    e.Rests goal input rest passed completed (r.closeToken e) := by
  unfold Round.closeToken at calm ⊢
  split
  · rename_i crowded
    have fits : r.moved.toList.length ≤ e.stackLimit := by
      rw [if_pos crowded] at calm
      have room : r.overflowed = false ∧ r.moved.size ≤ e.stackLimit := by
        simpa [Round.note] using calm.room
      rw [← Queue.sizeLength]
      exact room.2
    refine ⟨h.sane, h.idle, ?_, h.accepted, h.divides⟩
    simp only [Round.note, Queue.toListOfList, List.take_of_length_le fits]
    exact h.moved
  · exact h

structure Enumerates (e : Engine V) (input : List (Token V)) (completed : List (List Turn))
    (accepted : List (ForkingLR.Accepted V)) (result : Except (Rejection V) (List (ForkingLR.Accepted V))) :
    Prop where
  aligned : List.Forall₂ (Took.Accepted e input) completed accepted
  nodup : completed.Nodup
  all : ∀ {turns tree value}, e.Completes input turns tree value → turns ∈ completed
  answer : accepted = [] ∧ (∃ seen token remaining, result = .error (.notInLanguage seen token remaining)) ∨
    accepted ≠ [] ∧ result = .ok accepted

def completions (e : Engine V) (input : List (Token V)) (turns : List Turn) : Prop :=
  ∃ own tree value, turns = .accept :: own ∧ e.Completes input own tree value

theorem aimsCompletions (e : Engine V) (input left : List (Token V)) :
    e.Aims input left (e.completions input) := by
  constructor
  · intro turns aimed
    obtain ⟨own, tree, value, rfl, _, _, _, _, path, known, accepts, _⟩ := aimed
    exact .accept path known accepts
  · intro turns frames trees rest aimed path
    obtain ⟨own, tree, value, rfl, _⟩ := aimed
    exact absurd List.suffix_rfl path.notAccept

theorem Rests.exhausts (fitted : e.Fitted input)
    (h : e.Rests goal input rest passed completed r) (spent : passed = [] ∨ rest = [])
    {turns : List Turn} {tree : Tree V} {value : V} (complete : e.Completes input turns tree value)
    (aimed : goal (.accept :: turns)) : turns ∈ completed := by
  obtain ⟨k, inside, past⟩ := h.divides.whole aimed
  obtain ⟨frames, token, left, x, path, _⟩ := complete
  rcases List.mem_append.1 inside with stuck | finished
  · obtain ⟨s, _, took⟩ := (forallMem h.moved).1 k stuck
    obtain ⟨trees, there⟩ := took.path
    obtain rfl : rest = [] := spent.resolve_left (List.ne_nil_of_mem stuck)
    rcases List.suffix_cons_iff.1 past with rfl | past
    · exact absurd List.suffix_rfl there.notAccept
    · obtain ⟨_, _, more, again, less⟩ := path.earlier past
      obtain ⟨_, _, rfl⟩ := there.unique fitted.trimmed again
      simp at less
  · obtain ⟨done, listed, rfl⟩ := List.mem_map.1 finished
    rcases List.suffix_cons_iff.1 past with same | past
    · cases same
      exact listed
    · exact absurd past path.notAccept

theorem Rests.enumerates (fitted : e.Fitted input)
    (h : e.Rests (e.completions input) input rest passed completed r) (spent : passed = [] ∨ rest = [])
    (seen : List (Token V)) (token : Token V) :
    e.Enumerates input completed r.accepted.toList (exhausted seen token rest r) := by
  refine ⟨h.accepted, h.divides.distinct, ?_, ?_⟩
  · intro turns tree value complete
    exact h.exhausts fitted spent complete ⟨turns, tree, value, rfl, complete⟩
  · unfold exhausted
    cases found : r.accepted.toList with
    | nil =>
      have none : r.accepted.isEmpty = true := (Queue.isEmptyIff _).2 found
      exact .inl ⟨rfl, seen, token, remainingOf rest, by simp [none]⟩
    | cons a others =>
      have some : ¬ r.accepted.isEmpty = true := by simp [Queue.isEmptyIff, found]
      exact .inr ⟨by simp, by simp [some]⟩

theorem restsInitial (e : Engine V) (input : List (Token V)) :
    e.Rests goal input input [[]] [] Round.initial := by
  refine ⟨rfl, rfl, ?_, ?_, ?_, ?_⟩
  · simp only [Round.initial, Queue.toListOfList]
    exact .cons ⟨⟨[], .start⟩, rfl, rfl⟩ .nil
  · simp [Round.initial]
  · exact List.pairwise_singleton _ _
  · intro turns _
    exact ⟨[], List.mem_singleton.2 rfl, List.nil_suffix⟩

theorem Visits.explores {tokens seen : List (Token V)} (fitted : e.Fitted (closeInput tokens))
    (quiet : e.Quiet goal) (h : e.Visits tokens seen m rest r) (calm : Calm r)
    (aims : e.Aims (closeInput tokens) (m.token :: rest) goal) :
    ∃ own queued passed completed,
      e.Explores goal (closeInput tokens) m rest [] own queued passed completed r := by
  induction h with
  | first input known =>
    have initial : e.Rests goal _ _ [[]] [] Round.initial := restsInitial e (closeInput tokens)
    rw [input] at initial ⊢
    exact ⟨[], [[]], [], [], initial.opens (m := ⟨_, _, 0⟩)⟩
  | step before working ih =>
    obtain ⟨own, queued, passed, completed, explores⟩ := ih (calmBefore (Round.remembersStep e _ _) calm) aims
    exact explores.step fitted quiet aims before.placed.known calm.room calm.acyclic
  | @next seen rest m r token terminal before done sane unfinished alive known ih =>
    have closed : Calm (r.closeToken e) := ⟨calm.room, calm.acyclic⟩
    have sooner : e.Aims (closeInput tokens) (m.token :: token :: rest) goal :=
      ⟨aims.led, fun aimed path => Nat.lt_succ_of_lt (aims.further aimed path)⟩
    obtain ⟨own, queued, passed, completed, explores⟩ := ih (calmBefore (Round.remembersClose e _) closed) sooner
    have rests := (explores.rests done unfinished).closes closed
    exact ⟨[], passed, [], completed, rests.opens (m := ⟨token, terminal, _⟩)⟩

theorem runEnumerates {tokens : List (Token V)} (explorer : e.Explorer (closeInput tokens))
    (known : ∀ token ∈ closeInput tokens, (e.automaton.terminal? token.kind).isSome = true)
    (calm : Calm (e.run tokens).last) :
    ∃ completed accepted, e.Enumerates (closeInput tokens) completed accepted (e.run tokens).result := by
  have fitted := explorer.equipped.fitted
  have quiet : e.Quiet (e.completions (closeInput tokens)) := by
    intro allowed
    simp [explorer.recovery] at allowed
  have explores {seen rest m r} (visited : e.Visits tokens seen m rest r) :=
    visited.explores fitted quiet (calmBefore visited.remembers calm) (aimsCompletions e _ _)
  have ends := runEnds e tokens
  generalize (e.run tokens).result = result at ends ⊢
  cases ends with
  | @unknown seen rest token arrives unknown =>
    have inside : token ∈ closeInput tokens := by simp [← arrives.input]
    simpa [unknown] using known token inside
  | faulty visited fault =>
    obtain ⟨_, _, _, _, explores⟩ := explores visited
    simp [explores.sane] at fault
  | @done seen rest m r visited finished sane stops =>
    obtain ⟨own, queued, passed, completed, explores⟩ := explores visited
    have searched : ¬ (e.mode = .first ∧ r.accepted.isEmpty = false) := by simp [explorer.mode]
    have rests := explores.rests finished searched
    have spent : passed = [] ∨ rest = [] :=
      (stops.resolve_left searched).imp_left (nilOfEmpty rests.moved)
    exact ⟨completed, _, rests.enumerates fitted spent seen m.token⟩

theorem runAccepts {tokens : List (Token V)} (fitted : e.Fitted (closeInput tokens))
    (known : ∀ token ∈ closeInput tokens, e.automaton.terminal? token.kind ≠ none)
    (calm : Calm (e.run tokens).last) {turns : List Turn} {tree : Tree V} {value : V}
    (complete : e.Completes (closeInput tokens) turns tree value) :
    ∃ completed accepted, completed.Nodup ∧ accepted ≠ [] ∧
      List.Forall₂ (Took.Accepted e (closeInput tokens)) completed accepted ∧
      (e.run tokens).result = .ok accepted := by
  have aimed : e.completions (closeInput tokens) (.accept :: turns) := ⟨_, tree, value, rfl, complete⟩
  have explores {seen rest m r} (visited : e.Visits tokens seen m rest r) :=
    visited.explores fitted (fun _ _ => ⟨_, aimed⟩) (calmBefore visited.remembers calm) (aimsCompletions e _ _)
  have answer := runEnds e tokens
  generalize (e.run tokens).result = result at answer ⊢
  cases answer with
  | @unknown seen rest token arrives unknown =>
    have inside : token ∈ closeInput tokens := by simp [← arrives.input]
    exact absurd unknown (known token inside)
  | faulty visited fault =>
    obtain ⟨_, _, _, _, found⟩ := explores visited
    simp [found.sane] at fault
  | @done seen rest m r visited finished sane stops =>
    obtain ⟨own, queued, passed, completed, found⟩ := explores visited
    -- As long as none is found there are other stacks, so none recovers.
    have some : r.accepted.isEmpty = false := by
      by_contra none
      rw [Bool.not_eq_false] at none
      have rests := found.rests finished (by simp [none])
      have ended := (stops.resolve_left (by simp [none])).imp_left (nilOfEmpty rests.moved)
      have member := rests.exhausts fitted ended complete aimed
      rw [nilOfEmpty rests.accepted none] at member
      contradiction
    refine ⟨completed, r.accepted.toList, found.divides.distinct, ?_, found.accepted, ?_⟩
    · rw [Ne, ← Queue.isEmptyIff, some]
      simp
    · rw [exhausted, if_neg (by simp [some])]

end Engine
end ForkingLR
