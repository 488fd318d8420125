import ForkingLR.Proofs.Engine.Limit

/-! Runs of a table whose rows have no choice. At most one stack is alive at a time, so no fork is refused
and no stack is cut off. All that can be done lies on one path: if the path completes the input, both
modes answer with what it leads to, and with nothing else. -/
namespace ForkingLR

variable {V : Type}

namespace Round

structure Adds (r r' : Round V) : Prop where
  hand : r'.hand = r.hand
  todo : r'.todo = r.todo
  overflowed : r'.overflowed = r.overflowed
  others : r'.others ≤ r.others + 1

structure Lone (r : Round V) : Prop where
  alive : r.hand.toList.length + r.others ≤ 1
  pending : r.todo.length ≤ 1
  room : r.overflowed = false

theorem Lone.adds {r r' : Round V} (h : r.Lone) {s : Stack V} (held : r.hand = some s)
    (adds : Adds { r with hand := none } r') : r'.Lone := by
  have alone := h.alive
  have more : r'.others ≤ r.others + 1 := adds.others
  rw [held, Option.toList_some, List.length_singleton] at alone
  refine ⟨?_, adds.todo ▸ h.pending, adds.overflowed.trans h.room⟩
  rw [adds.hand, Option.toList_none, List.length_nil]
  omega

theorem Lone.close {r : Round V} (h : r.Lone) (e : Engine V) : (r.closeToken e).Lone := by
  unfold closeToken
  split
  · have alone := h.alive
    have limit : 1 ≤ e.stackLimit := Nat.le_max_right _ _
    simp only [others, Queue.sizeLength] at alone
    refine ⟨?_, h.pending, ?_⟩
    · simp only [note, others, Queue.sizeLength, Queue.toListOfList, List.length_take]
      omega
    · simp only [note, h.room, Queue.sizeLength, Bool.false_or, decide_eq_false_iff_not]
      omega
  · exact h

theorem Lone.open {r : Round V} (h : r.Lone) (e : Engine V) (m : Moment V) : (r.openToken e m).Lone := by
  have alone := h.alive
  refine ⟨?_, h.pending, h.room⟩
  simp only [openToken, note, others, Queue.sizeLength, Queue.toListOfList, Queue.toListEmpty,
    List.length_map, List.length_nil] at alone ⊢
  omega

theorem loneInitial : (initial : Round V).Lone := ⟨Nat.le_refl 1, Nat.zero_le _, rfl⟩

variable [SemanticValue V] {e : Engine V} {m : Moment V}

theorem addsAct (r : Round V) (s : Stack V) (action : Action) : Adds r (act e m r s action) := by
  have same : r.others ≤ r.others + 1 := Nat.le_succ _
  cases action with
  | shift target => exact ⟨rfl, rfl, rfl, Nat.le_refl _⟩
  | reduce id =>
    simp only [act]
    split
    · exact ⟨rfl, rfl, rfl, same⟩
    · split
      · refine ⟨rfl, rfl, rfl, Nat.le_of_eq ?_⟩
        exact Nat.add_right_comm _ 1 _
      · exact ⟨rfl, rfl, rfl, same⟩
  | accept => exact ⟨rfl, rfl, rfl, same⟩
  | goto target => exact ⟨rfl, rfl, rfl, same⟩

theorem addsStarve (r : Round V) (s : Stack V) : Adds r (starve e m r s) := by
  have same : r.others ≤ r.others + 1 := Nat.le_succ _
  unfold starve
  split
  · exact ⟨rfl, rfl, rfl, Nat.le_refl _⟩
  · split
    · split
      · refine ⟨rfl, rfl, rfl, Nat.le_of_eq ?_⟩
        exact Nat.add_right_comm _ 1 _
      · exact ⟨rfl, rfl, rfl, same⟩
    · exact ⟨rfl, rfl, rfl, same⟩

theorem Lone.step (single : e.automaton.Deterministic) {r : Round V} (h : r.Lone) : (r.step e m).Lone := by
  cases held : r.hand with
  | some s =>
    cases pending : r.todo with
    | nil =>
      rw [stepStarve held pending]
      exact h.adds held (addsStarve _ s)
    | cons action todo =>
      have short := h.pending
      obtain rfl : todo = [] := by simpa [pending] using short
      rw [stepAct held pending]
      exact h.adds held (addsAct _ s action)
  | none =>
    have alone := h.alive
    simp only [held, others, Queue.sizeLength, Option.toList_none, List.length_nil, Nat.zero_add] at alone
    cases popped : r.waiting.pop? with
    | none =>
      rw [stepIdle held popped]
      refine ⟨?_, Nat.zero_le _, h.room⟩
      simp only [held, others, Queue.sizeLength, Queue.toListEmpty, Option.toList_none, List.length_nil]
      omega
    | some entry =>
      obtain ⟨s, waiting⟩ := entry
      rw [stepPick held popped]
      refine ⟨?_, single s.state m.terminal, h.room⟩
      rw [Queue.toListOfPop popped, List.length_cons] at alone
      simp only [others, Queue.sizeLength, Option.toList_some, List.length_singleton]
      omega

end Round

namespace Engine
variable [SemanticValue V] {e : Engine V} {input tokens : List (Token V)}

theorem Visits.lone (single : e.automaton.Deterministic) {seen rest : List (Token V)} {m : Moment V}
    {r : Round V} (h : e.Visits tokens seen m rest r) : r.Lone := by
  induction h with
  | first input known => exact Round.loneInitial.open e _
  | step before working ih => exact ih.step single
  | next before done sane unfinished alive known ih => exact (ih.close e).open e _

theorem runRoom (single : e.automaton.Deterministic) : (e.run tokens).last.overflowed = false :=
  (runLast (P := Round.Lone) (fun _ h => h.close e) (fun visited => visited.lone single)
    Round.loneInitial).room

theorem Completes.takes (trimmed : e.automaton.Trimmed) (single : e.automaton.Deterministic)
    {turns own : List Turn} {tree : Tree V} {value : V} (complete : e.Completes input turns tree value)
    {frames : Frames V} {trees : List (Tree V)} {token : Token V} {rest : List (Token V)} {x : Symbol}
    {action : Action} (path : e.Path input own frames trees (token :: rest)) (past : own <:+ turns)
    (known : e.automaton.terminal? token.kind = some x) (listed : action ∈ e.automaton.actions frames.state x) :
    action.turn :: own <:+ .accept :: turns := by
  obtain ⟨_, _, _, _, whole, known', accepts, _⟩ := complete
  have further : own ≠ .accept :: turns := by
    rintro rfl
    exact path.notAccept List.suffix_rfl
  obtain ⟨turn, inside, next⟩ := path.goesOn trimmed known (.accept whole known' accepts)
    (past.trans (List.suffix_cons _ _)) further
  obtain ⟨other, listed', rfl⟩ := List.mem_map.1 inside
  rwa [single.sole listed listed']

theorem Completes.behind (trimmed : e.automaton.Trimmed) (single : e.automaton.Deterministic)
    {turns own : List Turn} {tree : Tree V} {value : V} (complete : e.Completes input turns tree value)
    {frames : Frames V} {trees : List (Tree V)} {rest : List (Token V)}
    (path : e.Path input own frames trees rest) : own <:+ turns := by
  induction path with
  | start => exact List.nil_suffix
  | shift before known listed ih =>
    have next := complete.takes trimmed single before ih known listed
    exact (List.suffix_cons_iff.1 next).resolve_left nofun
  | reduce before known listed found made goto ih =>
    have next := complete.takes trimmed single before ih known listed
    exact (List.suffix_cons_iff.1 next).resolve_left nofun

theorem Completes.unique (trimmed : e.automaton.Trimmed) (single : e.automaton.Deterministic)
    {turns turns' : List Turn} {tree tree' : Tree V} {value value' : V}
    (complete : e.Completes input turns tree value) (other : e.Completes input turns' tree' value') :
    turns = turns' ∧ value = value' := by
  have whole := complete
  have whole' := other
  obtain ⟨_, _, _, _, path, _, _, rfl⟩ := complete
  obtain ⟨_, _, _, _, path', _, _, rfl⟩ := other
  have forth := whole'.behind trimmed single path
  have back := whole.behind trimmed single path'
  obtain rfl : turns = turns' := forth.eq_of_length (Nat.le_antisymm forth.length_le back.length_le)
  obtain ⟨rfl, _, _⟩ := path.unique trimmed path'
  exact ⟨rfl, rfl⟩

theorem runSole (fitted : e.Fitted (closeInput tokens)) (sparing : Sparing e.automaton)
    (single : e.automaton.Deterministic)
    (known : ∀ token ∈ closeInput tokens, e.automaton.terminal? token.kind ≠ none)
    {turns : List Turn} {tree : Tree V} {value : V} (complete : e.Completes (closeInput tokens) turns tree value) :
    (e.run tokens).result = .ok [⟨value, []⟩] := by
  have trimmed := sparing.trimmed
  obtain ⟨completed, accepted, distinct, some, aligned, answer⟩ :=
    runAccepts fitted known ⟨runRoom single, runAcyclic sparing tokens⟩ complete
  have same : ∀ k ∈ completed, k = turns := by
    intro k inside
    obtain ⟨_, _, ⟨_, complete'⟩, _⟩ := (forallMem aligned).1 k inside
    exact (complete'.unique trimmed single complete).1
  rw [answer]
  cases aligned with
  | nil => exact absurd rfl some
  | @cons k one completed accepted first others =>
    obtain rfl : completed = [] := by
      by_contra more
      obtain ⟨k', inside⟩ := List.exists_mem_of_ne_nil _ more
      have again : k' = k := (same k' (List.mem_cons_of_mem _ inside)).trans (same k List.mem_cons_self).symm
      exact (List.nodup_cons.1 distinct).1 (again ▸ inside)
    obtain ⟨⟨_, complete'⟩, unharmed⟩ := first
    cases others
    rw [← (complete'.unique trimmed single complete).2, ← unharmed]

end Engine
end ForkingLR
