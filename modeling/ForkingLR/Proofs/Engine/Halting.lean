import ForkingLR.Parser
import ForkingLR.Proofs.Automaton
import ForkingLR.Proofs.Engine.Visits
import Mathlib.Logic.Function.Iterate

/-! Every run stops, whatever table it is run on. A run is a machine that takes one small step after
another and never calls itself; within a token each step makes the work that is left smaller, and the
tokens run out. What it stops with is told apart from the faults that a checked table cannot have. -/
namespace ForkingLR

inductive Phase (V : Type) where
  | before (seen : List (Token V)) (r : Round V) (rest : List (Token V))
  | reading (seen : List (Token V)) (m : Moment V) (rest : List (Token V)) (r : Round V)
  | stopped (outcome : Outcome V)

namespace Automaton

theorem rowFaultGoto {x : Symbol} {row : List Action} {target : Nat} (terminal : isTerminal x = true)
    (listed : .goto target ∈ row) : rowFault? x row ≠ none := by
  intro sound
  unfold rowFault? at sound
  rw [if_pos terminal, List.findSome?_eq_none_iff] at sound
  simpa using sound _ listed

theorem checkedRow {a : Automaton} (checked : a.check = .ok ()) {s target : Nat} {x : Symbol}
    (listed : .goto target ∈ a.actions s x) : isTerminal x = false := by
  by_contra terminal
  rw [Bool.not_eq_false] at terminal
  unfold actions at listed
  split at listed
  · rename_i st found
    rw [State.actionsOn, SortedMap.getDOfGet] at listed
    cases entry : st.rows.get? x with
    | none => simp [entry] at listed
    | some row =>
      rw [entry, Option.getD_some] at listed
      unfold check at checked
      split at checked
      · contradiction
      · split at checked
        · contradiction
        · rename_i sound
          have here : (st, s) ∈ a.states.zipIdx := List.mem_zipIdx_iff_getElem?.2 found
          have state := List.findSome?_eq_none_iff.1 sound _ here
          have fine := List.findSome?_eq_none_iff.1 state _ (SortedMap.getSomeIff.1 entry)
          exact rowFaultGoto terminal listed (Option.map_eq_none_iff.1 fine)
  · contradiction

end Automaton

namespace Engine
variable {V : Type} [SemanticValue V]

def advance (e : Engine V) : Phase V → Phase V
  | .before seen r [] =>
    match seen.getLast? with
    | some last => .stopped ⟨exhausted seen.dropLast last [] r, r⟩
    | none => .stopped ⟨.ok r.accepted.toList, r⟩
  | .before seen r (token :: rest) =>
    match e.automaton.terminal? token.kind with
    | none => .stopped ⟨.error (.badToken token), r⟩
    | some terminal =>
      let m : Moment V := ⟨token, terminal, seen.length⟩
      .reading seen m rest (r.openToken e m)
  | .reading seen m rest r =>
    if r.isDone e then
      match r.fault with
      | some fault => .stopped ⟨.error (.internal fault), r⟩
      | none =>
        if e.mode == .first && !r.accepted.isEmpty then .stopped ⟨.ok r.accepted.toList, r⟩
        else if r.moved.isEmpty then .stopped ⟨exhausted seen m.token rest r, r⟩
        else .before (seen ++ [m.token]) (r.closeToken e) rest
    else .reading seen m rest (r.step e m)
  | .stopped outcome => .stopped outcome

def StopsWith (e : Engine V) (phase : Phase V) (outcome : Outcome V) : Prop :=
  ∃ steps, e.advance^[steps] phase = .stopped outcome

variable {e : Engine V}

theorem stopsNow {phase : Phase V} {outcome : Outcome V} (h : e.advance phase = .stopped outcome) :
    e.StopsWith phase outcome := ⟨1, h⟩

theorem stopsLater {phase : Phase V} {outcome : Outcome V} (h : e.StopsWith (e.advance phase) outcome) :
    e.StopsWith phase outcome := by
  obtain ⟨steps, arrived⟩ := h
  exact ⟨steps + 1, arrived⟩

theorem stopsDone {seen rest : List (Token V)} {m : Moment V} {r : Round V} (done : r.isDone e = true)
    (later : ∀ seen r, e.StopsWith (.before seen r rest) (e.runFrom seen r rest)) :
    e.StopsWith (.reading seen m rest r) (e.after seen m rest r) := by
  cases fault : r.fault with
  | some fault' => exact stopsNow (by simp only [advance, after, done, fault, if_true])
  | none =>
    by_cases found : (e.mode == .first && !r.accepted.isEmpty) = true
    · exact stopsNow (by simp only [advance, after, done, fault, found, if_true])
    · by_cases stuck : r.moved.isEmpty = true
      · refine stopsNow ?_
        simp only [advance, after, done, fault, found, stuck, if_true, if_false, Bool.false_eq_true]
      · have next : e.advance (.reading seen m rest r) =
            .before (seen ++ [m.token]) (r.closeToken e) rest := by
          simp only [advance, done, fault, found, stuck, if_true, if_false, Bool.false_eq_true]
        refine stopsLater ?_
        rw [next]
        simp only [after, fault, found, stuck, if_false, Bool.false_eq_true]
        exact later _ _

theorem stopsRound {seen rest : List (Token V)} {m : Moment V}
    (later : ∀ seen r, e.StopsWith (.before seen r rest) (e.runFrom seen r rest)) (r : Round V) :
    e.StopsWith (.reading seen m rest r) (e.after seen m rest (r.run e m)) := by
  -- The induction is on the work that is left of the round, which every step makes smaller.
  induction r using Round.run.induct e m with
  | case1 r done =>
    rw [Round.runOfDone done]
    exact stopsDone done later
  | case2 r working ih =>
    rw [Round.runStep (by simpa using working)]
    refine stopsLater ?_
    rw [advance, if_neg working]
    exact ih

theorem stopsFrom (rest : List (Token V)) :
    ∀ seen r, e.StopsWith (.before seen r rest) (e.runFrom seen r rest) := by
  induction rest with
  | nil =>
    intro seen r
    refine stopsNow ?_
    cases last : seen.getLast? with
    | none => simp only [advance, runFrom, last]
    | some token => simp only [advance, runFrom, last]
  | cons token rest ih =>
    intro seen r
    cases kind : e.automaton.terminal? token.kind with
    | none =>
      rw [runFromUnknown kind]
      exact stopsNow (by rw [advance, kind])
    | some terminal =>
      rw [runFromKnown kind]
      refine stopsLater ?_
      rw [advance, kind]
      exact stopsRound ih _

theorem reduceFaults {s : Stack V} {id : Nat} {fault : Fault} (h : e.reduce s id = .error fault) :
    (∃ state symbol, fault = .missingGoto state symbol) ∨ fault = .stackUnderflow id ∨
      fault = .unknownProduction id := by
  unfold reduce at h
  split at h
  · split at h
    · dsimp only at h
      split at h
      · exact .inl ⟨_, _, (Except.error.inj h).symm⟩
      · contradiction
    · exact .inr (.inl (Except.error.inj h).symm)
  · exact .inr (.inr (Except.error.inj h).symm)

structure Plausible (a : Automaton) (fault : Fault) : Prop where
  checked : a.check = .ok () → ∀ state symbol, fault ≠ .gotoUnderTerminal state symbol
  found : fault ≠ .emptyAccept

theorem plausiblePreserved {m : Moment V} (known : e.automaton.terminal? m.token.kind = some m.terminal) :
    Round.Preserves e m (fun _ => True) (fun _ => True) (fun _ => True) (Plausible e.automaton) where
  fork := fun _ _ _ => trivial
  shift := fun _ _ _ _ => trivial
  reduce := fun _ _ _ _ _ _ => trivial
  fails := by
    intro s id fault _ _ failed
    obtain ⟨_, _, rfl⟩ | rfl | rfl := reduceFaults failed
    · exact ⟨nofun, nofun⟩
    · exact ⟨nofun, nofun⟩
    · exact ⟨nofun, nofun⟩
  accept := fun _ _ _ => trivial
  goto := by
    intro s target _ listed
    refine ⟨?_, nofun⟩
    intro checked
    have terminal := Grammar.isTerminalOfMem (Automaton.terminalMember known)
    rw [Automaton.checkedRow checked listed] at terminal
    contradiction
  skip := fun _ _ _ _ => trivial
  recover := fun _ _ _ _ _ _ => trivial

theorem Visits.plausible {tokens seen rest : List (Token V)} {m : Moment V} {r : Round V}
    (h : e.Visits tokens seen m rest r) {fault : Fault} (failed : r.fault = some fault) :
    Plausible e.automaton fault := by
  have kept := h.keeps (I := fun _ _ => True) trivial (fun _ _ _ => trivial)
    fun placed => plausiblePreserved placed.known
  exact kept.fault fault failed

theorem runAnswers (e : Engine V) (tokens : List (Token V)) :
    (∀ fault, (e.run tokens).result = .error (.internal fault) → Plausible e.automaton fault) ∧
      ∀ accepted, (e.run tokens).result = .ok accepted → accepted ≠ [] := by
  have ends := runEnds e tokens
  generalize (e.run tokens).result = result at ends ⊢
  cases ends with
  | unknown => exact ⟨nofun, nofun⟩
  | faulty visited failed =>
    refine ⟨?_, nofun⟩
    intro fault same
    cases same
    exact visited.plausible failed
  | @done seen rest m r visited =>
    unfold exhausted
    split
    · exact ⟨nofun, nofun⟩
    · rename_i found
      refine ⟨nofun, ?_⟩
      intro accepted same empty
      cases same
      exact found ((Queue.isEmptyIff _).2 empty)

theorem runHalts (e : Engine V) (tokens : List (Token V)) :
    (∃ steps, e.advance^[steps] (.before [] Round.initial (closeInput tokens)) =
      .stopped (e.run tokens)) ∧
    (e.automaton.check = .ok () → ∀ state symbol,
      (e.run tokens).result ≠ .error (.internal (.gotoUnderTerminal state symbol))) ∧
    (∀ accepted, (e.run tokens).result = .ok accepted → accepted ≠ []) ∧
    Parser.conclude Parser.firstMatch (e.run tokens) ≠ .error (.rejected (.internal .emptyAccept)) := by
  obtain ⟨faults, answers⟩ := runAnswers e tokens
  refine ⟨stopsFrom (closeInput tokens) [] Round.initial, ?_, answers, ?_⟩
  · intro checked state symbol failed
    exact (faults _ failed).checked checked state symbol rfl
  · intro empty
    unfold Parser.conclude at empty
    split at empty
    · rename_i accepted answer
      cases accepted with
      | nil => exact answers [] answer rfl
      | cons first others =>
        unfold Parser.firstMatch at empty
        split at empty
        · contradiction
        · split at empty
          · contradiction
          · cases empty
    · rename_i reason answer
      cases empty
      exact (faults _ answer).found rfl

/-- A table no grammar has: its one state reduces an empty production twice and stays where it is, so
that every stack forks for as long as the limit lets it. -/
def tangled (g : Grammar) : Engine Value where
  automaton :=
    { grammar := g
      states := [{
        items := []
        rows := SortedMap.insert
          (SortedMap.insert ∅ .endOfInput [.reduce 0, .reduce 0]) ⟨3, .nonterminal⟩ [.goto 0] }]
      config := {} }
  reducers := [.forward]
  argStyle := .splat
  options := {}
  mode := .all

theorem tangledHalts :
    ∃ g, (Draft.ofCalls [.declare "a" []]).build = .ok g ∧ (tangled g).automaton.check = .ok () ∧
      (∃ steps, (tangled g).advance^[steps] (.before [] Round.initial [Token.endOfInput]) =
        .stopped ((tangled g).run [])) ∧
      ∀ state symbol,
        ((tangled g).run []).result ≠ .error (.internal (.gotoUnderTerminal state symbol)) := by
  have sound : ((Draft.ofCalls [.declare "a" []]).build.toOption.any fun g =>
      (tangled g).automaton.check.isOk) = true := by decide +kernel
  obtain ⟨g, built, sound⟩ := okOfAny sound
  obtain ⟨_, checked⟩ := okOfIsOk sound
  obtain ⟨halts, faults, _⟩ := runHalts (tangled g) []
  exact ⟨g, built, checked, halts, faults checked⟩

end Engine
end ForkingLR
