import ForkingLR.Token
import ForkingLR.Value

/-! What a stack remembers about the errors it recovered from. -/
namespace ForkingLR

structure RecoveredError (V : Type) where
  production : Nat
  tokens : List (Token V)
  deriving DecidableEq, Repr

structure Recovery (V : Type) where
  errorMode : Bool := false
  pending : Option (List (Token V)) := none
  recovered : List (RecoveredError V) := []
  lastRecovery : Option Nat := none
  deriving DecidableEq, Repr

namespace Recovery
variable {V : Type}

def canRecoverAt (r : Recovery V) (index : Nat) : Bool := decide (r.lastRecovery ≠ some index)

def enter (r : Recovery V) (index : Nat) : Recovery V :=
  { r with errorMode := true, pending := some [], lastRecovery := some index }

def leaveErrorMode (r : Recovery V) : Recovery V := { r with errorMode := false }

def appendToLast (token : Token V) : List (RecoveredError V) → List (RecoveredError V)
  | [] => []
  | [e] => [{ e with tokens := e.tokens ++ [token] }]
  | e :: rest => e :: appendToLast token rest

/-- Skips a token: for the pending error, else for the error settled last. -/
def skip (r : Recovery V) (token : Token V) : Recovery V :=
  match r.pending with
  | some tokens => { r with pending := some (tokens ++ [token]) }
  | none => { r with recovered := appendToLast token r.recovered }

def settle [SemanticValue V] (r : Recovery V) (production : Nat) : V × Recovery V :=
  let tokens := r.pending.getD []
  (SemanticValue.ofItems (tokens.map fun t => t.value.getD default),
    { r with pending := none, recovered := r.recovered ++ [⟨production, tokens⟩] })

end Recovery
end ForkingLR
