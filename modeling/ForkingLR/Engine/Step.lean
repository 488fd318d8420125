import ForkingLR.Engine.Event
import ForkingLR.Queue
import ForkingLR.Reducer
import ForkingLR.Stack

/-! What happens under one token, in small steps. A round holds the stack in hand with the
actions it still has to take, the stacks that wait, those that have moved past the token, and
what was accepted. Each step takes one action or picks up one stack. -/
namespace ForkingLR

structure ParseOptions where
  errorRecovery : Bool := true
  maxStacks : Nat := 1024
  deriving DecidableEq, Repr

inductive AcceptMode where
  | first
  | all
  deriving DecidableEq, Repr

structure Engine (V : Type) where
  automaton : Automaton
  reducers : List (Reducer V)
  argStyle : ArgStyle
  options : ParseOptions
  mode : AcceptMode
  traced : Bool := false

structure Accepted (V : Type) where
  value : V
  errors : List (RecoveredError V)
  deriving DecidableEq, Repr

structure Moment (V : Type) where
  token : Token V
  terminal : Symbol
  index : Nat

structure Round (V : Type) where
  hand : Option (Stack V) := none
  todo : List Action := []
  waiting : Queue (Stack V) := .empty
  moved : Queue (Stack V) := .empty
  accepted : Queue (Accepted V) := .empty
  nextId : Nat
  /-- Whether a fork or a stack was given up to keep to the stack limit. -/
  overflowed : Bool := false
  cycled : Bool := false
  /-- Newest event first. -/
  log : List Event := []
  fault : Option Fault := none

namespace Engine
variable {V : Type}

def stackLimit (e : Engine V) : Nat := max e.options.maxStacks 1

@[inline]
def reductionLimit (e : Engine V) (s : Stack V) : Nat := (s.entryDepth + 1) * max e.automaton.size 1

def settleValues [SemanticValue V] (production : Nat) :
    List Symbol → List V → Recovery V → List V × Recovery V
  | symbol :: rhs, v :: values, r =>
    let head := if symbol = .error then r.settle production else (v, r)
    let tail := settleValues production rhs values head.2
    (head.1 :: tail.1, tail.2)
  | _, _, r => ([], r)

@[inline]
def arguments [SemanticValue V] (production : Nat) (rhs : List Symbol) (values : List V)
    (r : Recovery V) : List V × Recovery V :=
  if rhs.contains .error then settleValues production rhs values r else (values, r)

def reduce [SemanticValue V] (e : Engine V) (s : Stack V) (production : Nat) :
    Except Fault (Stack V) :=
  match e.automaton.production? production, e.reducers[production]? with
  | some p, some reducer =>
    if s.frames.covers p.rhs.length then
      let below := s.frames.drop p.rhs.length
      match e.automaton.goto? below.state p.lhs with
      | none => .error (.missingGoto below.state (e.automaton.name p.lhs))
      | some target =>
        let values := s.frames.topValues p.rhs.length []
        let settled := arguments production p.rhs values s.recovery
        .ok { s with
          frames := .push target (reducer.apply e.argStyle settled.1) below
          recovery := settled.2 }
    else .error (.stackUnderflow production)
  | _, _ => .error (.unknownProduction production)

def errorTarget? (e : Engine V) (state : Nat) : Option Nat :=
  (e.automaton.actions state .error).findSome? Action.shiftTarget?

/-- The frames that are left when enough are popped for the error terminal to be shifted, and
the state it is shifted to. -/
def recoveryPoint? (e : Engine V) : Frames V → Option (Frames V × Nat)
  | .bottom => (e.errorTarget? 0).map (.bottom, ·)
  | .push state value below =>
    match e.errorTarget? state with
    | some target => some (.push state value below, target)
    | none => e.recoveryPoint? below

def recover? [Inhabited V] (e : Engine V) (m : Moment V) (s : Stack V) : Option (Stack V) := do
  let (frames, target) ← e.recoveryPoint? s.frames
  let s := { s with frames, recovery := s.recovery.enter m.index }
  pure (s.push target default)

end Engine

namespace Round
variable {V : Type}

@[inline]
def note (e : Engine V) (r : Round V) (event : Event) : Round V :=
  { r with log := if e.traced then event :: r.log else r.log }

@[inline]
def enqueue (r : Round V) (s : Stack V) : Round V := { r with waiting := r.waiting.push s }

@[inline]
def moveOn (r : Round V) (s : Stack V) : Round V := { r with moved := r.moved.push s }

@[inline]
def others (r : Round V) : Nat := r.waiting.size + r.moved.size

def live (r : Round V) : Nat :=
  r.others + if r.hand.isSome && !r.todo.isEmpty then 1 else 0

def act [SemanticValue V] (e : Engine V) (m : Moment V) (r : Round V) (s : Stack V)
    (action : Action) : Round V :=
  let r := r.note e (.acts s.id s.state action)
  match action with
  | .shift target =>
    let s := s.push target (m.token.value.getD default)
    r.moveOn { s with recovery := s.recovery.leaveErrorMode }
  | .reduce production =>
    let s := s.countReduction
    if e.reductionLimit s < s.reductions then
      { r with cycled := true }.note e (.cycles s.id)
    else match e.reduce s production with
      | .ok s => r.enqueue s
      | .error fault => { r with fault := some fault }
  | .accept => { r with accepted := r.accepted.push ⟨s.topValue, s.recovery.recovered⟩ }
  | .goto _ => { r with fault := some (.gotoUnderTerminal s.state m.token.kind) }

/-- Whether a stack without actions may look for an error production: it is the last one alive
and has not recovered at this token. -/
def mayRecover (e : Engine V) (m : Moment V) (r : Round V) (s : Stack V) : Bool :=
  e.options.errorRecovery && e.automaton.grammar.usesError && r.waiting.isEmpty &&
    r.moved.isEmpty && r.accepted.isEmpty && s.recovery.canRecoverAt m.index

def starve [SemanticValue V] (e : Engine V) (m : Moment V) (r : Round V) (s : Stack V) : Round V :=
  if s.recovery.errorMode && decide (m.terminal ≠ .endOfInput) then
    (r.note e (.skips s.id m.token.kind)).moveOn { s with recovery := s.recovery.skip m.token }
  else if r.mayRecover e m s then
    match e.recover? m s with
    | some s => (r.note e (.recovers s.id s.state)).enqueue s
    | none => r.note e (.dies s.id 0)
  else r.note e (.dies s.id s.state)

def forkAct [SemanticValue V] (e : Engine V) (m : Moment V) (r : Round V) (s : Stack V)
    (action : Action) : Round V :=
  if e.stackLimit ≤ r.others then
    { r with overflowed := true }.note e (.refusesFork s.id e.options.maxStacks)
  else
    let child := s.fork r.nextId
    act e m ({ r with nextId := r.nextId + 1 }.note e (.forks s.id child.id)) child action

def step [SemanticValue V] (e : Engine V) (m : Moment V) (r : Round V) : Round V :=
  match r.hand, r.todo with
  | some s, [] => starve e m { r with hand := none } s
  | some s, [action] => act e m { r with hand := none } s action
  | some s, action :: todo => forkAct e m { r with todo } s action
  | none, _ =>
    match r.waiting.pop? with
    | none => { r with todo := [], waiting := .empty }
    | some (s, waiting) =>
      { r with hand := some s, todo := e.automaton.actions s.state m.terminal, waiting }

def isDone (e : Engine V) (r : Round V) : Bool :=
  r.fault.isSome ||
    r.hand.isNone && (r.waiting.isEmpty || e.mode == .first && !r.accepted.isEmpty)

end Round
end ForkingLR
