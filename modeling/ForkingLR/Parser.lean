import ForkingLR.Artifact.Cache
import ForkingLR.Engine.Run
import ForkingLR.Grammar.Helper

/-! Parsers, and the rules with actions they are made of. -/
namespace ForkingLR

/-- Why a parse gave no plain result. `R` is what an input accepted after recovery results in. -/
inductive ParseError (V R : Type) where
  | rejected (reason : Rejection V)
  | handled (errors : List (RecoveredError V)) (result : R)

def ParseError.message {V R : Type} : ParseError V R → String
  | .rejected (.badToken token) =>
    "token type " ++ quoted token.kind ++ " is not part of the grammar"
  | .rejected (.notInLanguage seen current _) =>
    "unexpected " ++ quoted current.kind ++ " after " ++ toString seen.length ++ " token(s)"
  | .rejected (.internal fault) => fault.message
  | .handled errors _ =>
    "input accepted after recovering from " ++ toString errors.length ++ " error(s)"

structure Parser (V : Type) where
  automaton : Automaton
  reducers : List (Reducer V)
  argStyle : ArgStyle
  options : ParseOptions

namespace Parser
variable {V : Type} [SemanticValue V]

def engine (p : Parser V) (mode : AcceptMode) : Engine V :=
  { automaton := p.automaton
    reducers := p.reducers
    argStyle := p.argStyle
    options := p.options
    mode }

def withOptions (p : Parser V) (options : ParseOptions) : Parser V := { p with options }

def firstMatch (accepted : List (Accepted V)) : Except (ParseError V V) V :=
  match accepted with
  | [] => .error (.rejected (.internal .emptyAccept))
  | a :: _ => if a.errors.isEmpty then .ok a.value else .error (.handled a.errors a.value)

def allMatches (accepted : List (Accepted V)) : Except (ParseError V (List V)) (List V) :=
  let errors := accepted.flatMap Accepted.errors
  let values := accepted.map Accepted.value
  if errors.isEmpty then .ok values else .error (.handled errors values)

def conclude {R : Type} (settle : List (Accepted V) → Except (ParseError V R) R)
    (outcome : Outcome V) : Except (ParseError V R) R :=
  match outcome.result with
  | .ok accepted => settle accepted
  | .error reason => .error (.rejected reason)

def parse (p : Parser V) (tokens : List (Token V)) : Except (ParseError V V) V :=
  conclude firstMatch ((p.engine .first).run tokens)

def parseAll (p : Parser V) (tokens : List (Token V)) : Except (ParseError V (List V)) (List V) :=
  conclude allMatches ((p.engine .all).run tokens)

def parseTraced (p : Parser V) (tokens : List (Token V)) : Except (ParseError V V) V × String :=
  let outcome := { p.engine .first with traced := true }.run tokens
  (conclude firstMatch outcome, describeLog p.automaton outcome.log)

def describe (p : Parser V) : String :=
  "Parser \x7b states: " ++ toString p.automaton.size ++
    ", productions: " ++ toString p.reducers.length ++
    ", arg_style: " ++ (match p.argStyle with | .splat => "Splat" | .array => "Array") ++
    ", options: ParseOptions \x7b error_recovery: " ++ toString p.options.errorRecovery ++
    ", max_stacks: " ++ toString p.options.maxStacks ++ " \x7d \x7d"

end Parser

structure ClauseAction (V : Type) where
  apply : List V → V
  selection : Option (List Bool)

structure ParserDraft (V : Type) where
  grammar : Draft := .empty
  actions : List (Option (ClauseAction V)) := []
  argStyle : ArgStyle := .splat
  options : ParseOptions := {}

abbrev ParserEdit (V α : Type) := EStateM GrammarError (ParserDraft V) α

namespace ParserDraft
variable {V : Type}

def onGrammar {α : Type} (edit : Edit α) : ParserEdit V α := fun d =>
  match edit d.grammar with
  | .ok a grammar => .ok a { d with grammar }
  | .error e grammar => .error e { d with grammar }

def resize (length : Nat) (actions : List (Option (ClauseAction V))) :
    List (Option (ClauseAction V)) :=
  actions.take length ++ List.replicate (length - actions.length) none

def recordAction (id : Nat) (action : ClauseAction V) : ParserEdit V Unit :=
  modify fun d => { d with actions := (resize (id + 1) d.actions).set id (some action) }

structure Clause (V : Type) where
  rhs : String
  action : List V → V
  precedence : Option String := none

def addClause (lhs : Symbol) (clause : Clause V) : ParserEdit V Unit := do
  let expansion ← onGrammar (Draft.expand clause.rhs)
  let id ← onGrammar (Draft.declareSymbols lhs expansion.symbols)
  match clause.precedence with
  | none => pure ()
  | some terminal => onGrammar (Draft.setProductionPrecedence id terminal)
  recordAction id ⟨clause.action, expansion.selection⟩

def addClauses (lhs : Symbol) : List (Clause V) → ParserEdit V Unit
  | [] => pure ()
  | clause :: rest => do
    addClause lhs clause
    addClauses lhs rest

def production (lhs : String) (clauses : List (Clause V)) : ParserEdit V Unit := do
  let lhs ← onGrammar (Draft.internNonterminal lhs)
  addClauses lhs clauses

def rule (lhs : String) (clause : Clause V) : ParserEdit V Unit := production lhs [clause]

def declarePrecedence (assoc : Associativity) (terminals : List String) : ParserEdit V Unit := do
  discard (onGrammar (Draft.declarePrecedence assoc terminals))

def setStart (name : String) : ParserEdit V Unit := do
  discard (onGrammar (Draft.setStart name))

def defineOptional (name base : String) : ParserEdit V Unit := do
  discard (onGrammar (Draft.defineOptional name base))

def defineList (name base : String) (separator : Option String) : ParserEdit V Unit := do
  discard (onGrammar (Draft.defineList name base separator))

def defineNonemptyList (name base : String) (separator : Option String) : ParserEdit V Unit := do
  discard (onGrammar (Draft.defineNonemptyList name base separator))

def reducerFor (origin : Option Origin) (action : Option (ClauseAction V)) : Reducer V :=
  match origin, action with
  | some (.helper role), _ => .helper role
  | _, some action => .action action.apply action.selection
  | _, none => .forward

def reducers (d : ParserDraft V) (g : Grammar) : List (Reducer V) :=
  (resize g.size d.actions).mapIdx fun id action => reducerFor (g.origin? id) action

def toParser (d : ParserDraft V) (g : Grammar) (a : Automaton) : Parser V :=
  ⟨a, d.reducers g, d.argStyle, d.options⟩

def finalize (d : ParserDraft V) (config : TableConfig) : Except ConstructionError (Parser V) := do
  let g ← d.grammar.build
  let a ← Automaton.build g config
  pure (d.toParser g a)

def finalizeCached (d : ParserDraft V) (config : TableConfig) (cache : TableCache) (s : Store)
    (time : Nat) : Except ConstructionError (Parser V) × Store :=
  match d.grammar.build with
  | .error e => (.error e, s)
  | .ok g =>
    let (answer, stored) := Automaton.loadOrBuild g config cache s time
    (do return d.toParser g (← answer), stored)

end ParserDraft
end ForkingLR
