import ForkingLR.Automaton.Report

/-! The log of a run: one event for each thing that happens to a stack. -/
namespace ForkingLR

inductive Event where
  | token (index : Nat) (kind : String) (live : Nat)
  | skips (stack : Nat) (kind : String)
  | recovers (stack state : Nat)
  | dies (stack state : Nat)
  | refusesFork (stack limit : Nat)
  | forks (stack child : Nat)
  | acts (stack state : Nat) (action : Action)
  | cycles (stack : Nat)
  | truncates (dropped : Nat)
  deriving DecidableEq, Repr

namespace Event

def describe (a : Automaton) : Event → String
  | .token index kind live =>
    "token " ++ toString index ++ ": " ++ kind ++ " (" ++ toString live ++ " stacks)"
  | .skips stack kind => "  stack " ++ toString stack ++ " discards " ++ kind
  | .recovers stack state =>
    "  stack " ++ toString stack ++ " recovers into state " ++ toString state
  | .dies stack state => "  stack " ++ toString stack ++ " dies in state " ++ toString state
  | .refusesFork stack limit =>
    "  stack " ++ toString stack ++ " cannot fork: " ++ toString limit ++ " stacks live"
  | .forks stack child => "  stack " ++ toString stack ++ " forks into " ++ toString child
  | .acts stack state action =>
    "  stack " ++ toString stack ++ " state " ++ toString state ++ ": " ++ a.describeAction action
  | .cycles stack => "  stack " ++ toString stack ++ " dropped: reduction cycle"
  | .truncates dropped => "  dropping " ++ toString dropped ++ " stacks"

end Event

def describeLog (a : Automaton) (log : List Event) : String :=
  String.join (log.map fun e => e.describe a ++ "\n")

end ForkingLR
