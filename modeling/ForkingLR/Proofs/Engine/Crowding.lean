import ForkingLR.Proofs.Engine.Determinism

/-! How many stacks are alive. A fork is admitted by a count of the stacks beside the one that forks, so while
a token is read there may be one stack more than the limit says. It takes a fork of the stack that holds the
last place; every token begins within the limit again. -/
namespace ForkingLR

variable {V : Type}

namespace Round

inductive Counts (e : Engine V) (r r' : Round V) : Prop
  | finish (held : r.hand.isSome = true) (gone : r'.hand = none) (more : r'.others ≤ r.others + 1)
  | refuse (held : r.hand.isSome = true) (kept : r'.hand.isSome = true) (same : r'.others = r.others)
  | fork (held : r.hand.isSome = true) (several : 1 < r.todo.length) (room : r.others < e.stackLimit)
      (kept : r'.hand.isSome = true) (more : r'.others ≤ r.others + 1)
  | pick (idle : r.hand = none) (held : r'.hand.isSome = true) (one : r.others = r'.others + 1)
  | rest (idle : r.hand = none) (still : r'.hand = none) (fewer : r'.others ≤ r.others)

def Roomy (e : Engine V) (r : Round V) : Prop :=
  r.others ≤ e.stackLimit ∧ (r.hand.isSome = true → r.others < e.stackLimit)

/-- The stack in hand may be one too many, and so may be what became of it. -/
def Bounded (e : Engine V) (r : Round V) : Prop :=
  r.others ≤ e.stackLimit + 1 ∧ (r.hand.isSome = true → r.others ≤ e.stackLimit)

structure Overcommits (e : Engine V) (r : Round V) : Prop where
  held : r.hand.isSome = true
  several : 1 < r.todo.length
  last : r.others + 1 = e.stackLimit

variable {e : Engine V} {m : Moment V} {r r' : Round V}

theorem liveLe {limit : Nat} (all : r.others ≤ limit) (held : r.hand.isSome = true → r.others < limit) :
    r.live ≤ limit := by
  unfold live
  split
  · rename_i working
    exact held (Bool.and_eq_true_iff.1 working).1
  · exact all

theorem Roomy.live (h : r.Roomy e) : r.live ≤ e.stackLimit := liveLe h.1 h.2

theorem Bounded.live (h : r.Bounded e) : r.live ≤ e.stackLimit + 1 :=
  liveLe h.1 fun held => Nat.lt_succ_of_le (h.2 held)

theorem Roomy.bounded (h : r.Roomy e) : r.Bounded e := ⟨Nat.le_succ_of_le h.1, fun _ => h.1⟩

theorem Bounded.counts (h : r.Bounded e) (step : Counts e r r') : r'.Bounded e := by
  obtain ⟨all, beside⟩ := h
  cases step with
  | finish held gone more =>
    have others := beside held
    exact ⟨by omega, by simp [gone]⟩
  | refuse held kept same =>
    have others := beside held
    exact ⟨by omega, fun _ => by omega⟩
  | fork held several room kept more => exact ⟨by omega, fun _ => by omega⟩
  | pick idle held one => exact ⟨by omega, fun _ => by omega⟩
  | rest idle still fewer => exact ⟨by omega, by simp [still]⟩

theorem Roomy.counts (h : r.Roomy e) (step : Counts e r r') : r'.Roomy e ∨ r.Overcommits e := by
  obtain ⟨all, beside⟩ := h
  cases step with
  | finish held gone more =>
    have others := beside held
    exact .inl ⟨by omega, by simp [gone]⟩
  | refuse held kept same =>
    have others := beside held
    exact .inl ⟨by omega, fun _ => by omega⟩
  | fork held several room kept more =>
    by_cases last : r.others + 1 = e.stackLimit
    · exact .inr ⟨held, several, last⟩
    · exact .inl ⟨by omega, fun _ => by omega⟩
  | pick idle held one => exact .inl ⟨by omega, fun _ => by omega⟩
  | rest idle still fewer => exact .inl ⟨by omega, by simp [still]⟩

theorem closeTokenSize (e : Engine V) (r : Round V) : (r.closeToken e).moved.size ≤ e.stackLimit := by
  unfold closeToken
  split
  · simp only [note, Queue.sizeLength, Queue.toListOfList]
    exact List.length_take_le _ _
  · rename_i fits
    exact (Nat.le_of_not_lt fits).trans (Nat.le_max_left _ _)

theorem roomyOpen (idle : r.hand = none) (fits : r.moved.size ≤ e.stackLimit) : (r.openToken e m).Roomy e := by
  rw [Queue.sizeLength] at fits
  refine ⟨?_, by simp [openToken, note, idle]⟩
  simpa [openToken, note, others, Queue.sizeLength] using fits

theorem handedOver (done : r.isDone e = true) (sane : r.fault = none)
    (unfinished : ¬ (e.mode = .first ∧ r.accepted.isEmpty = false)) : (r.closeToken e).live ≤ e.stackLimit := by
  have empty : r.waiting.size = 0 := by
    simpa [Queue.isEmpty] using Engine.waitingOfDone done sane unfinished
  have waiting : (r.closeToken e).waiting = r.waiting := by
    unfold closeToken
    split <;> rfl
  have fits := closeTokenSize e r
  simpa [live, others, waiting, empty, Engine.handOfDone done sane] using fits

variable [SemanticValue V]

theorem stepCounts (e : Engine V) (m : Moment V) (r : Round V) : Counts e r (r.step e m) := by
  cases held : r.hand with
  | some s =>
    have some : r.hand.isSome = true := by simp [held]
    rcases todo : r.todo with _ | ⟨action, _ | ⟨other, rest⟩⟩
    · rw [stepStarve held todo]
      have adds := addsStarve (e := e) (m := m) { r with hand := none } s
      exact .finish some adds.hand adds.others
    · rw [stepAct held todo]
      have adds := addsAct (e := e) (m := m) { r with hand := none } s action
      exact .finish some adds.hand adds.others
    · rw [stepFork held todo]
      unfold forkAct
      split
      · exact .refuse some some rfl
      · rename_i admitted
        have adds := addsAct (e := e) (m := m)
          ({ r with todo := other :: rest, nextId := r.nextId + 1 }.note e (.forks s.id r.nextId))
          (s.fork r.nextId) action
        have kept := (congrArg Option.isSome adds.hand).trans some
        exact .fork some (by simp [todo]) (Nat.lt_of_not_le admitted) kept adds.others
  | none =>
    cases popped : r.waiting.pop? with
    | none =>
      rw [stepIdle held popped]
      exact .rest held held (Nat.add_le_add_right (Nat.zero_le _) _)
    | some entry =>
      obtain ⟨s, waiting⟩ := entry
      rw [stepPick held popped]
      refine .pick held rfl ?_
      simp only [others, Queue.sizeLength, Queue.toListOfPop popped, List.length_cons]
      exact Nat.add_right_comm _ 1 _

end Round

namespace Engine
variable [SemanticValue V] {e : Engine V} {tokens seen rest : List (Token V)} {m : Moment V} {r : Round V}

theorem Visits.bounded (h : e.Visits tokens seen m rest r) : r.Bounded e := by
  induction h with
  | first input known => exact (Round.roomyOpen rfl (Nat.le_max_right _ _)).bounded
  | step before working ih => exact ih.counts (Round.stepCounts e _ _)
  | next before done sane unfinished alive known ih =>
    have idle := (closeTokenHand e _).trans (handOfDone done sane)
    exact (Round.roomyOpen idle (Round.closeTokenSize e _)).bounded

theorem Visits.roomy (h : e.Visits tokens seen m rest r) :
    r.Roomy e ∨ ∃ before, e.Visits tokens seen m rest before ∧ before.Overcommits e := by
  induction h with
  | first input known => exact .inl (Round.roomyOpen rfl (Nat.le_max_right _ _))
  | @step seen rest m r before working ih =>
    rcases ih with roomy | earlier
    · rcases roomy.counts (Round.stepCounts e m r) with roomy | last
      · exact .inl roomy
      · exact .inr ⟨r, before, last⟩
    · exact .inr earlier
  | next before done sane unfinished alive known ih =>
    have idle := (closeTokenHand e _).trans (handOfDone done sane)
    exact .inl (Round.roomyOpen idle (Round.closeTokenSize e _))

theorem liveBounded (visited : e.Visits tokens seen m rest r) :
    r.live ≤ e.stackLimit + 1 ∧ (r.hand.isSome = true → r.others ≤ e.stackLimit) ∧
      (e.stackLimit < r.live → ∃ before, e.Visits tokens seen m rest before ∧ before.Overcommits e) ∧
      (r.isDone e = true → r.fault = none → ¬ (e.mode = .first ∧ r.accepted.isEmpty = false) →
        (r.closeToken e).live ≤ e.stackLimit) := by
  refine ⟨visited.bounded.live, visited.bounded.2, ?_, Round.handedOver⟩
  intro crowded
  rcases visited.roomy with roomy | earlier
  · exact absurd roomy.live (Nat.not_le_of_lt crowded)
  · exact earlier

end Engine

namespace ParserDraft

def blankPair : ParserDraft Value where
  grammar := .ofCalls [.declare "s" ["a"], .declare "s" ["b"], .declare "a" [], .declare "b" []]
  options := { maxStacks := 1 }

end ParserDraft

namespace Engine

theorem blankPairForks :
    ∃ (p : Parser Value) (m : Moment Value) (r : Round Value), ParserDraft.blankPair.finalize {} = .ok p ∧
      (p.engine .all).Visits [] [] m [] r ∧ (p.engine .all).stackLimit = 1 ∧ r.live = 2 ∧
      ((p.engine .all).run []).result.toOption.map List.length = some 2 := by
  have ran : ((ParserDraft.blankPair.finalize {}).toOption.any fun p =>
      let e := p.engine .all
      let m : Moment Value := ⟨.endOfInput, .endOfInput, 0⟩
      let opened := Round.initial.openToken e m
      decide (e.automaton.terminal? "EOS" = some .endOfInput) && !opened.isDone e &&
        !(opened.step e m).isDone e && decide (e.stackLimit = 1) &&
        decide (((opened.step e m).step e m).live = 2) &&
        decide ((e.run []).result.toOption.map List.length = some 2)) = true := by decide +kernel
  obtain ⟨p, finished, ran⟩ := okOfAny ran
  simp only [Bool.and_eq_true, Bool.not_eq_true', decide_eq_true_eq] at ran
  obtain ⟨⟨⟨⟨⟨known, fresh⟩, held⟩, limit⟩, crowded⟩, answers⟩ := ran
  exact ⟨p, _, _, finished, ((Visits.first rfl known).step fresh).step held, limit, crowded, answers⟩

theorem blankPairBounded :
    ∃ (p : Parser Value) (m : Moment Value) (r before : Round Value), ParserDraft.blankPair.finalize {} = .ok p ∧
      (p.engine .all).Visits [] [] m [] r ∧ r.live ≤ (p.engine .all).stackLimit + 1 ∧
      (p.engine .all).Visits [] [] m [] before ∧ before.Overcommits (p.engine .all) := by
  obtain ⟨p, m, r, finished, visited, limit, two, _⟩ := blankPairForks
  obtain ⟨most, _, exceeds, _⟩ := liveBounded visited
  have crowded : (p.engine .all).stackLimit < r.live := by
    rw [limit, two]
    decide
  obtain ⟨before, earlier, last⟩ := exceeds crowded
  exact ⟨p, m, r, before, finished, visited, most, earlier, last⟩

theorem blankPairCrowds :
    ∃ (p : Parser Value) (m : Moment Value) (r : Round Value), ParserDraft.blankPair.finalize {} = .ok p ∧
      (p.engine .all).Visits [] [] m [] r ∧ max (p.engine .all).options.maxStacks 1 < r.live ∧
      ((p.engine .all).run []).result.toOption.map List.length = some 2 := by
  obtain ⟨p, m, r, finished, visited, limit, two, answers⟩ := blankPairForks
  refine ⟨p, m, r, finished, visited, ?_, answers⟩
  calc max (p.engine .all).options.maxStacks 1 = 1 := limit
    _ < r.live := by rw [two]; decide

end Engine
end ForkingLR
