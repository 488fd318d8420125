import ForkingLR.Sorted.Map
import ForkingLR.Sorted.Set
import ForkingLR.Symbol
import ForkingLR.Table.Item

/-! States of a parse table. A state is named by its position, and a row of no actions is the
same as no row. -/
namespace ForkingLR

inductive Action where
  | shift (target : Nat)
  | reduce (production : Nat)
  | goto (target : Nat)
  | accept
  deriving DecidableEq, Repr

namespace Action

def isReduce : Action → Bool
  | .reduce _ => true
  | _ => false

def isShift : Action → Bool
  | .shift _ => true
  | _ => false

def shiftTarget? : Action → Option Nat
  | .shift target => some target
  | _ => none

def gotoTarget? : Action → Option Nat
  | .goto target => some target
  | _ => none

def reduction? : Action → Option Nat
  | .reduce production => some production
  | _ => none

end Action

structure State where
  items : List Item
  transitions : SortedMap Symbol Nat := ∅
  rows : SortedMap Symbol (List Action) := ∅
  deriving DecidableEq

namespace State

def actionsOn (s : State) (symbol : Symbol) : List Action := s.rows.getD symbol []

def setRow (s : State) (symbol : Symbol) (actions : List Action) : State :=
  if actions.isEmpty then { s with rows := s.rows.erase symbol }
  else { s with rows := s.rows.insert symbol actions }

def removeAction (s : State) (symbol : Symbol) (action : Action) : State :=
  s.setRow symbol ((s.actionsOn symbol).filter (· ≠ action))

def conflicts (s : State) : List (Symbol × List Action) :=
  s.rows.entries.filter fun row => decide (1 < row.2.length)

def conflictOn (s : State) (symbol : Symbol) : Bool := decide (1 < (s.actionsOn symbol).length)

def reductions (s : State) : List Nat :=
  (SortedSet.ofList (s.rows.entries.flatMap fun row => row.2.filterMap Action.reduction?)).toList

end State
end ForkingLR
