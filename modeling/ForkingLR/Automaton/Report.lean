import ForkingLR.Automaton

/-! A readable listing of a table. -/
namespace ForkingLR

def padLeft (width : Nat) (s : String) : String :=
  String.ofList (List.replicate (width - s.length) ' ') ++ s

def padRight (width : Nat) (s : String) : String :=
  s ++ String.ofList (List.replicate (width - s.length) ' ')

def Associativity.describe : Associativity → String
  | .left => "left"
  | .right => "right"
  | .nonAssoc => "nonassoc"

namespace Automaton

def spaced (words : List String) : String := String.join (words.map (" " ++ ·))

def describeProduction (a : Automaton) (id : Nat) : String :=
  match a.production? id with
  | none => "<production " ++ toString id ++ ">"
  | some p =>
    a.name p.lhs ++ " ->" ++
      if p.rhs.isEmpty then " <empty>" else spaced (p.rhs.map a.name)

def describeAction (a : Automaton) : Action → String
  | .shift target => "shift " ++ toString target
  | .goto target => "goto " ++ toString target
  | .reduce production =>
    "reduce " ++ toString production ++ " (" ++ a.describeProduction production ++ ")"
  | .accept => "accept"

def describeItem? (a : Automaton) (item : Item) : Option String := do
  let p ← a.production? item.production
  let names := p.rhs.map a.name
  pure ("    " ++ a.name p.lhs ++ " ->" ++
    spaced (names.take item.dot ++ "." :: names.drop item.dot))

def productionLine (a : Automaton) (id : Nat) : String :=
  "  " ++ padLeft 3 (toString id) ++ ": " ++ a.describeProduction id ++
    match a.grammar.productionPrecedence? id with
    | some p => "  [" ++ toString p.level ++ " " ++ p.assoc.describe ++ "]"
    | none => ""

def precedenceLine (a : Automaton) (entry : Symbol × Precedence) : String :=
  "  " ++ padLeft 3 (toString entry.2.level) ++ " " ++ padRight 8 entry.2.assoc.describe ++ " " ++
    a.name entry.1

def rowLine (a : Automaton) (row : Symbol × List Action) : String :=
  "    " ++ padRight 12 (a.name row.1) ++ " " ++ " | ".intercalate (row.2.map a.describeAction)

def conflictLine (a : Automaton) (row : Symbol × List Action) : String :=
  "    " ++ a.name row.1 ++ " (" ++ toString row.2.length ++ " actions)"

def titled (title : String) (lines : List String) : List String :=
  if lines.isEmpty then [] else title :: lines

def stateLines (a : Automaton) (id : Nat) (s : State) : List String :=
  "" :: ("# State " ++ toString id) :: s.items.filterMap a.describeItem? ++
    titled "  actions:" (s.rows.entries.map a.rowLine) ++
    titled "  conflicts:" (s.conflicts.map a.conflictLine)

def reportLines (a : Automaton) : List String :=
  "# Productions" :: (List.range a.grammar.size).map a.productionLine ++
    (if a.grammar.precedence.isEmpty then []
      else "" :: "# Precedence" :: a.grammar.precedence.declared.map a.precedenceLine) ++
    a.states.zipIdx.flatMap fun (s, id) => a.stateLines id s

def report (a : Automaton) : String := String.join (a.reportLines.map (· ++ "\n"))

end Automaton
end ForkingLR
