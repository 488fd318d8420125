import ForkingLR.Engine.Step

/-! Why a round ends. A waiting stack can turn into at most a row of others, each of which has
used up a reduction or the one recovery at this token, so it is given a weight that outweighs
them all. Every step makes the total smaller. -/
namespace ForkingLR

namespace Automaton

def widestRow (a : Automaton) : Nat :=
  (a.states.flatMap fun s => s.rows.entries.map fun row => row.2.length).foldl max 0

theorem leFoldlMax {n start : Nat} {l : List Nat} (h : n ≤ start ∨ n ∈ l) :
    n ≤ l.foldl max start := by
  induction l generalizing start with
  | nil => simpa using h
  | cons x rest ih =>
    refine ih ?_
    rcases h with h | h
    · exact Or.inl (Nat.le_trans h (Nat.le_max_left _ _))
    · rcases List.mem_cons.1 h with rfl | h
      · exact Or.inl (Nat.le_max_right _ _)
      · exact Or.inr h

theorem actionsLengthLe (a : Automaton) (state : Nat) (symbol : Symbol) :
    (a.actions state symbol).length ≤ a.widestRow := by
  unfold actions
  split
  · rename_i s found
    rw [State.actionsOn, SortedMap.getDOfGet, SortedMap.get?]
    cases row : s.rows.entries.find? fun e => compare symbol e.1 == .eq with
    | none => simp
    | some e =>
      refine leFoldlMax (Or.inr ?_)
      exact List.mem_flatMap.2 ⟨s, List.mem_of_getElem? found,
        List.mem_map.2 ⟨e, List.mem_of_find?_eq_some row, rfl⟩⟩
  · simp

end Automaton

namespace Engine
variable {V : Type}

def base (e : Engine V) : Nat := 2 * e.automaton.widestRow + 3

def budget (e : Engine V) (m : Moment V) (s : Stack V) : Nat :=
  e.reductionLimit s - s.reductions + if s.recovery.canRecoverAt m.index then 1 else 0

def scale (e : Engine V) (budget : Nat) : Nat := Nat.pow e.base budget

def weight (e : Engine V) (m : Moment V) (s : Stack V) : Nat := e.scale (e.budget m s + 1)

theorem scaleSucc (e : Engine V) (n : Nat) : e.scale (n + 1) = e.scale n * e.base := rfl

theorem scalePos (e : Engine V) (n : Nat) : 0 < e.scale n := Nat.pow_pos (by unfold base; omega)

theorem weightLe (e : Engine V) (m : Moment V) {s child : Stack V}
    (h : e.budget m child < e.budget m s) : e.weight m child ≤ e.scale (e.budget m s) :=
  Nat.pow_le_pow_right (by unfold base; omega) h

theorem lastRecoverySettle [SemanticValue V] (r : Recovery V) (production : Nat) :
    (r.settle production).2.lastRecovery = r.lastRecovery := rfl

theorem lastRecoverySettleValues [SemanticValue V] (production : Nat) (rhs : List Symbol)
    (values : List V) (r : Recovery V) :
    (settleValues production rhs values r).2.lastRecovery = r.lastRecovery := by
  induction rhs generalizing values r with
  | nil => rfl
  | cons symbol rhs ih =>
    cases values with
    | nil => rfl
    | cons v values =>
      simp only [settleValues, ih]
      split
      · exact lastRecoverySettle r production
      · rfl

theorem lastRecoveryArguments [SemanticValue V] (production : Nat) (rhs : List Symbol)
    (values : List V) (r : Recovery V) :
    (arguments production rhs values r).2.lastRecovery = r.lastRecovery := by
  unfold arguments
  split
  · exact lastRecoverySettleValues production rhs values r
  · rfl

theorem reduceCounters [SemanticValue V] {e : Engine V} {s child : Stack V} {production : Nat}
    (h : e.reduce s production = .ok child) :
    child.reductions = s.reductions ∧ child.entryDepth = s.entryDepth ∧
      child.recovery.lastRecovery = s.recovery.lastRecovery := by
  unfold reduce at h
  split at h
  · split at h
    · dsimp only at h
      split at h
      · contradiction
      · cases h
        exact ⟨rfl, rfl, lastRecoveryArguments _ _ _ _⟩
    · contradiction
  · contradiction

theorem budgetReduceLt [SemanticValue V] {e : Engine V} {m : Moment V} {s child : Stack V}
    {production : Nat} (h : e.reduce s.countReduction production = .ok child)
    (within : s.countReduction.reductions ≤ e.reductionLimit s.countReduction) :
    e.budget m child < e.budget m s := by
  obtain ⟨reductions, entry, last⟩ := reduceCounters h
  have limit : e.reductionLimit child = e.reductionLimit s := by
    simp [reductionLimit, entry, Stack.countReduction]
  have recoverable : child.recovery.canRecoverAt m.index = s.recovery.canRecoverAt m.index := by
    simp [Recovery.canRecoverAt, last, Stack.countReduction]
  have counted : child.reductions = s.reductions + 1 := by simpa [Stack.countReduction] using reductions
  have room : s.reductions + 1 ≤ e.reductionLimit s := by
    simpa [Stack.countReduction, reductionLimit] using within
  simp only [budget, limit, recoverable, counted]
  omega

theorem budgetRecoverLt [SemanticValue V] {e : Engine V} {m : Moment V} {s child : Stack V}
    (h : e.recover? m s = some child) (able : s.recovery.canRecoverAt m.index = true) :
    e.budget m child < e.budget m s := by
  obtain ⟨point, _, same⟩ := Option.bind_eq_some_iff.1 h
  cases same
  have fresh : s.recovery.lastRecovery ≠ some m.index := by
    simpa [Recovery.canRecoverAt] using able
  simp [budget, Stack.push, Recovery.enter, Recovery.canRecoverAt, reductionLimit, fresh]

end Engine

namespace Round
variable {V : Type}

def handCost (e : Engine V) (m : Moment V) (todo : List Action) : Option (Stack V) → Nat
  | none => 0
  | some s => max todo.length 1 * (e.scale (e.budget m s) + 1)

def waitingCost (e : Engine V) (m : Moment V) : List (Stack V) → Nat
  | [] => 0
  | s :: rest => e.weight m s + waitingCost e m rest

theorem waitingCostSnoc (e : Engine V) (m : Moment V) (l : List (Stack V))
    (s : Stack V) : waitingCost e m (l ++ [s]) = waitingCost e m l + e.weight m s := by
  induction l with
  | nil => simp [waitingCost]
  | cons t rest ih => simp only [List.cons_append, waitingCost, ih, Nat.add_assoc]

/-- The steps that are left, overestimated. -/
def cost (e : Engine V) (m : Moment V) (r : Round V) : Nat :=
  waitingCost e m r.waiting.toList + handCost e m r.todo r.hand

theorem costEnqueue (e : Engine V) (m : Moment V) (r : Round V) (s : Stack V) :
    (r.enqueue s).cost e m = r.cost e m + e.weight m s := by
  simp only [cost, enqueue, Queue.toListPush, waitingCostSnoc, Nat.add_right_comm]

theorem costActLe [SemanticValue V] (e : Engine V) (m : Moment V) (r : Round V) (s : Stack V)
    (action : Action) : (act e m r s action).cost e m ≤ r.cost e m + e.scale (e.budget m s) := by
  cases action with
  | shift target => exact Nat.le_add_right _ _
  | goto target => exact Nat.le_add_right _ _
  | accept => exact Nat.le_add_right _ _
  | reduce production =>
    simp only [act]
    split
    · exact Nat.le_add_right _ _
    · rename_i within
      split
      · rename_i child ok
        rw [costEnqueue]
        exact Nat.add_le_add_left (e.weightLe m (Engine.budgetReduceLt ok (by omega))) _
      · exact Nat.le_add_right _ _

theorem costStarveLe [SemanticValue V] (e : Engine V) (m : Moment V) (r : Round V) (s : Stack V) :
    (starve e m r s).cost e m ≤ r.cost e m + e.scale (e.budget m s) := by
  unfold starve
  split
  · exact Nat.le_add_right _ _
  · split
    · rename_i may
      split
      · rename_i child found
        rw [costEnqueue]
        refine Nat.add_le_add_left (e.weightLe m (Engine.budgetRecoverLt found ?_)) _
        simp only [mayRecover, Bool.and_eq_true] at may
        exact may.2
      · exact Nat.le_add_right _ _
    · exact Nat.le_add_right _ _

theorem costForkActLe [SemanticValue V] (e : Engine V) (m : Moment V) (r : Round V) (s : Stack V)
    (action : Action) : (forkAct e m r s action).cost e m ≤ r.cost e m + e.scale (e.budget m s) := by
  unfold forkAct
  split
  · exact Nat.le_add_right _ _
  · exact costActLe e m _ (s.fork r.nextId) action

theorem costStepLt [SemanticValue V] (e : Engine V) (m : Moment V) {r : Round V}
    (h : r.isDone e = false) : (r.step e m).cost e m < r.cost e m := by
  unfold step
  split
  · rename_i s held none
    refine Nat.lt_of_le_of_lt (costStarveLe e m _ s) ?_
    simp [cost, held, none, handCost]
  · rename_i s action held last
    refine Nat.lt_of_le_of_lt (costActLe e m _ s action) ?_
    simp [cost, held, last, handCost]
  · rename_i s action todo more held actions
    refine Nat.lt_of_le_of_lt (costForkActLe e m _ s action) ?_
    have length : todo.length ≠ 0 := by simpa using more
    simp only [cost, held, actions, handCost, List.length_cons]
    rw [show max (todo.length + 1) 1 = max todo.length 1 + 1 by omega, Nat.add_mul]
    omega
  · rename_i idle
    split
    · rename_i empty
      have done : r.waiting.isEmpty = true := r.waiting.isEmptyIff.2 (r.waiting.popNoneIff.1 empty)
      simp [isDone, idle, done] at h
    · rename_i s waiting popped
      have narrow := e.automaton.actionsLengthLe s.state m.terminal
      have positive := e.scalePos (e.budget m s)
      simp only [cost, idle, handCost, Queue.toListOfPop popped, waitingCost, Engine.weight,
        Engine.scaleSucc]
      generalize (e.automaton.actions s.state m.terminal).length = n at narrow
      generalize e.scale (e.budget m s) = w at positive
      have wide : max n 1 * (w + 1) ≤ max n 1 * (w * 2) := Nat.mul_le_mul_left _ (by omega)
      have under : max n 1 * (w * 2) < w * e.base := by
        rw [Nat.mul_comm, Nat.mul_assoc]
        exact Nat.mul_lt_mul_of_pos_left (by unfold Engine.base; omega) positive
      omega

end Round
end ForkingLR
