import ForkingLR.Table.Collection
import ForkingLR.Table.Prune
import ForkingLR.Table.Resolve

/-! Parse tables with their grammar, and how they are built. -/
namespace ForkingLR

structure TableConfig where
  lookahead : Bool := true
  precedence : Bool := true
  deriving DecidableEq, Repr

def TableConfig.lr0 : TableConfig := ⟨false, false⟩

structure Automaton where
  grammar : Grammar
  states : List State
  config : TableConfig
  deriving DecidableEq

namespace Automaton

def size (a : Automaton) : Nat := a.states.length

def isEmpty (a : Automaton) : Bool := a.states.isEmpty

def name (a : Automaton) (symbol : Symbol) : String := a.grammar.name symbol

def production? (a : Automaton) (id : Nat) : Option (Production Symbol) := a.grammar.production? id

def actions (a : Automaton) (state : Nat) (symbol : Symbol) : List Action :=
  match a.states[state]? with
  | some s => s.actionsOn symbol
  | none => []

def goto? (a : Automaton) (state : Nat) (symbol : Symbol) : Option Nat :=
  (a.actions state symbol).findSome? Action.gotoTarget?

def terminal? (a : Automaton) (name : String) : Option Symbol :=
  (a.grammar.symbols.lookup? name).filter fun s => a.grammar.terminals.contains s

def conflicts (a : Automaton) : List (Nat × Symbol × List Action) :=
  a.states.zipIdx.flatMap fun (s, id) => s.conflicts.map fun row => (id, row.1, row.2)

def rowFault? (symbol : Symbol) (actions : List Action) : Option RowFault :=
  if isTerminal symbol then
    actions.findSome? fun
      | .goto _ => some .gotoUnderTerminal
      | .accept => if symbol = .endOfInput then none else some .acceptBeforeEnd
      | _ => none
  else match actions with
    | [.goto _] => none
    | [_] => some .missingGoto
    | _ => some .severalActions

def undefined? (a : Automaton) : Option Symbol :=
  (a.grammar.productions.flatMap Production.rhs).find? fun s =>
    !isTerminal s && !a.grammar.cfg.defines s

def stateFault? (id : Nat) (s : State) : Option (Nat × Symbol × RowFault) :=
  s.rows.entries.findSome? fun row => (rowFault? row.1 row.2).map fun fault => (id, row.1, fault)

def check (a : Automaton) : Except ConstructionError Unit :=
  match a.undefined? with
  | some symbol => .error (.undefinedNonterminal (a.name symbol))
  | none =>
    match a.states.zipIdx.findSome? fun (s, id) => stateFault? id s with
    | some (id, symbol, fault) => .error (.sanity id (a.name symbol) fault)
    | none => .ok ()

def lookaheadStates (g : Grammar) (config : TableConfig) : Except ConstructionError (List State) :=
  let states := g.lr0States
  if config.lookahead then
    match g.lookaheads states with
    | .ok lookaheads => .ok (pruneByLookahead states lookaheads g.terminals g.usesError)
    | .error fault => .error (.internal fault)
  else .ok states

def build (g : Grammar) (config : TableConfig) : Except ConstructionError Automaton := do
  let states ← lookaheadStates g config
  let states ←
    if config.precedence then
      resolveByPrecedence g.symbols g.precedence g.productionPrecedence? states
    else pure states
  let a : Automaton := ⟨g, states, config⟩
  a.check
  pure a

end Automaton
end ForkingLR
