import ForkingLR.Precedence
import ForkingLR.Symbol.Table
import ForkingLR.Table.State

/-! Choice between conflicting actions by declared precedence. -/
namespace ForkingLR

structure Contender where
  action : Action
  precedence : Precedence
  deriving DecidableEq, Repr

def Contender.of? (ofTerminal : Option Precedence) (ofProduction : Nat → Option Precedence)
    (action : Action) : Option Contender :=
  match action with
  | .shift _ => ofTerminal.map (⟨action, ·⟩)
  | .reduce production => (ofProduction production).map (⟨action, ·⟩)
  | .goto _ => none
  | .accept => none

/-- Keeps the action chosen so far unless the challenger binds tighter, or is equal and of the
kind that the associativity prefers. Equal and non-associative is no choice. -/
def Contender.duel (chosen challenger : Contender) : Option Contender :=
  match compare challenger.precedence.level chosen.precedence.level with
  | .gt => some challenger
  | .lt => some chosen
  | .eq =>
    match challenger.precedence.assoc with
    | .left =>
      some (if challenger.action.isReduce && !chosen.action.isReduce then challenger else chosen)
    | .right =>
      some (if challenger.action.isShift && !chosen.action.isShift then challenger else chosen)
    | .nonAssoc => none

namespace State

def contested (s : State) : List (Symbol × List Action) :=
  s.conflicts.filter fun row => isTerminal row.1

def resolveRow (table : PrecedenceTable) (ofProduction : Nat → Option Precedence) (s : State)
    (row : Symbol × List Action) : Except Symbol State :=
  match row.2.mapM (Contender.of? (table.ofTerminal? row.1) ofProduction) with
  | none => .ok s
  | some [] => .ok s
  | some (first :: rest) =>
    match rest.foldlM Contender.duel first with
    | some winner => .ok (s.setRow row.1 [winner.action])
    | none => .error row.1

def resolve (table : PrecedenceTable) (ofProduction : Nat → Option Precedence) (s : State) :
    Except Symbol State :=
  s.contested.foldlM (resolveRow table ofProduction) s

end State

def resolveByPrecedence (symbols : SymbolTable) (table : PrecedenceTable)
    (ofProduction : Nat → Option Precedence) (states : List State) :
    Except ConstructionError (List State) :=
  if table.isEmpty then .ok states
  else states.zipIdx.mapM fun (s, id) =>
    match s.resolve table ofProduction with
    | .ok s => .ok s
    | .error symbol => .error (.nonAssociative id (symbols.name symbol))

end ForkingLR
