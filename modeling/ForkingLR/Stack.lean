import ForkingLR.Recovery

/-! Parse stacks. The bottom of every stack is state 0 without a value, and is never popped. -/
namespace ForkingLR

inductive Frames (V : Type) where
  | bottom
  | push (state : Nat) (value : V) (below : Frames V)
  deriving DecidableEq, Repr

namespace Frames
variable {V : Type}

@[inline]
def state : Frames V → Nat
  | .bottom => 0
  | .push state _ _ => state

def topValue? : Frames V → Option V
  | .bottom => none
  | .push _ value _ => some value

def height : Frames V → Nat
  | .bottom => 0
  | .push _ _ below => below.height + 1

def covers : Nat → Frames V → Bool
  | 0, _ => true
  | _ + 1, .bottom => false
  | count + 1, .push _ _ below => covers count below

/-- The values of the top `count` frames, lowest first, and `values` after them. -/
def topValues : Nat → List V → Frames V → List V
  | 0, values, _ => values
  | _ + 1, values, .bottom => values
  | count + 1, values, .push _ value below => topValues count (value :: values) below

def drop : Nat → Frames V → Frames V
  | 0, frames => frames
  | _ + 1, .bottom => .bottom
  | count + 1, .push _ _ below => drop count below

def states : Frames V → List Nat
  | .bottom => [0]
  | .push state _ below => below.states ++ [state]

end Frames

structure Stack (V : Type) where
  id : Nat
  frames : Frames V := .bottom
  recovery : Recovery V := {}
  reductions : Nat := 0
  entryDepth : Nat := 1
  deriving DecidableEq, Repr

namespace Stack
variable {V : Type}

def new (id : Nat) : Stack V := { id }

@[inline]
def state (s : Stack V) : Nat := s.frames.state

def depth (s : Stack V) : Nat := s.frames.height + 1

def isEmpty (s : Stack V) : Bool := s.frames.height == 0

def topValue [Inhabited V] (s : Stack V) : V := s.frames.topValue?.getD default

@[inline]
def push (s : Stack V) (state : Nat) (value : V) : Stack V :=
  { s with frames := .push state value s.frames }

def pop? (s : Stack V) (count : Nat) : Option (List V × Stack V) :=
  if s.frames.covers count then
    some (s.frames.topValues count [], { s with frames := s.frames.drop count })
  else none

def popFrame? (s : Stack V) : Option (Stack V) :=
  match s.frames with
  | .bottom => none
  | .push _ _ below => some { s with frames := below }

@[inline]
def fork (s : Stack V) (id : Nat) : Stack V := { s with id }

def beginToken (s : Stack V) : Stack V := { s with reductions := 0, entryDepth := s.depth }

@[inline]
def countReduction (s : Stack V) : Stack V := { s with reductions := s.reductions + 1 }

def states (s : Stack V) : List Nat := s.frames.states

end Stack
end ForkingLR
