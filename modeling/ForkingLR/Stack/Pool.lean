import ForkingLR.Stack

/-! Numbered stacks that share frames. Every push makes a frame of its own, and two stacks are
identical when the same push made their top frames. -/
namespace ForkingLR

structure Cell (V : Type) where
  stamp : Nat
  value : V
  position : Position
  deriving DecidableEq, Repr

instance {V : Type} [Inhabited V] : Inhabited (Cell V) := ⟨⟨0, default, {}⟩⟩

structure StackPool (V : Type) where
  slots : List (Option (Stack (Cell V))) := [some (Stack.new 0)]
  pushes : Nat := 0

namespace StackPool
variable {V : Type}

def get? (p : StackPool V) (number : Nat) : Option (Stack (Cell V)) := p.slots[number]?.join

def set (p : StackPool V) (number : Nat) (stack : Option (Stack (Cell V))) : StackPool V :=
  { p with slots := p.slots.set number stack }

def add (p : StackPool V) (stack : Stack (Cell V)) : StackPool V :=
  { p with slots := p.slots ++ [some stack] }

def push (p : StackPool V) (number : Nat) (stack : Stack (Cell V)) (state : Nat) (value : V)
    (position : Position) : StackPool V :=
  let p := p.set number (some (stack.push state ⟨p.pushes, value, position⟩))
  { p with pushes := p.pushes + 1 }

def topCell? (stack : Stack (Cell V)) : Option (Cell V) := stack.frames.topValue?

def topPosition (stack : Stack (Cell V)) : Position :=
  ((topCell? stack).map Cell.position).getD {}

def identical (a b : Stack (Cell V)) : Bool :=
  (topCell? a).map Cell.stamp == (topCell? b).map Cell.stamp

end StackPool
end ForkingLR
