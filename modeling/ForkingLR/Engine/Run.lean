import ForkingLR.Engine.Measure

/-! Running an engine over a whole input. The end marker is added where it is missing, and each
token is one round. -/
namespace ForkingLR

inductive Rejection (V : Type) where
  | badToken (token : Token V)
  | notInLanguage (seen : List (Token V)) (current : Token V) (remaining : List (Token V))
  | internal (fault : Fault)

structure Outcome (V : Type) where
  result : Except (Rejection V) (List (Accepted V))
  last : Round V

def Outcome.log {V : Type} (o : Outcome V) : List Event := o.last.log.reverse

namespace Round
variable {V : Type}

def run [SemanticValue V] (e : Engine V) (m : Moment V) (r : Round V) : Round V :=
  if r.isDone e then r else run e m (r.step e m)
termination_by r.cost e m
decreasing_by
  rename_i working
  exact costStepLt e m (by simpa using working)

def initial : Round V := { moved := .ofList [Stack.new 0], nextId := 1 }

def openToken (e : Engine V) (m : Moment V) (r : Round V) : Round V :=
  { r with waiting := .ofList (r.moved.toList.map Stack.beginToken), moved := .empty }.note e
    (.token m.index m.token.kind r.moved.size)

def closeToken (e : Engine V) (r : Round V) : Round V :=
  if e.options.maxStacks < r.moved.size then
    { r with
      moved := .ofList (r.moved.toList.take e.stackLimit)
      overflowed := r.overflowed || decide (e.stackLimit < r.moved.size) }.note e
      (.truncates (r.moved.size - e.options.maxStacks))
  else r

end Round

namespace Engine
variable {V : Type}

def remainingOf (rest : List (Token V)) : List (Token V) :=
  if rest.getLast?.any Token.isEnd then rest.dropLast else rest

def exhausted (seen : List (Token V)) (token : Token V) (rest : List (Token V)) (r : Round V) :
    Except (Rejection V) (List (Accepted V)) :=
  if r.accepted.isEmpty then .error (.notInLanguage seen token (remainingOf rest))
  else .ok r.accepted.toList

def runFrom [SemanticValue V] (e : Engine V) (seen : List (Token V)) (r : Round V) :
    List (Token V) → Outcome V
  | [] =>
    match seen.getLast? with
    | some last => ⟨exhausted seen.dropLast last [] r, r⟩
    | none => ⟨.ok r.accepted.toList, r⟩
  | token :: rest =>
    match e.automaton.terminal? token.kind with
    | none => ⟨.error (.badToken token), r⟩
    | some terminal =>
      let m : Moment V := ⟨token, terminal, seen.length⟩
      let r := (r.openToken e m).run e m
      match r.fault with
      | some fault => ⟨.error (.internal fault), r⟩
      | none =>
        if e.mode == .first && !r.accepted.isEmpty then ⟨.ok r.accepted.toList, r⟩
        else if r.moved.isEmpty then ⟨exhausted seen token rest r, r⟩
        else e.runFrom (seen ++ [token]) (r.closeToken e) rest

def closeInput (tokens : List (Token V)) : List (Token V) :=
  if tokens.getLast?.any Token.isEnd then tokens else tokens ++ [Token.endOfInput]

def run [SemanticValue V] (e : Engine V) (tokens : List (Token V)) : Outcome V :=
  e.runFrom [] Round.initial (closeInput tokens)

end Engine
end ForkingLR
