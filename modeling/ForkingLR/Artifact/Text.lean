import ForkingLR.Artifact
import ForkingLR.Json.Decode
import ForkingLR.Json.Reader

/-! The text of an artifact: one compact JSON object. -/
namespace ForkingLR

def Artifact.wordBound : Nat := 0x10000000000000000

def Artifact.versionBound : Nat := 0x100000000

namespace Json

def ofList {α : Type} (element : α → Json) (xs : List α) : Json := .array (xs.map element)

def ofPair {α β : Type} (first : α → Json) (second : β → Json) (p : α × β) : Json :=
  .array [first p.1, second p.2]

def word? : Json → Option Nat := natural? Artifact.wordBound

def ofAssociativity : Associativity → Json
  | .left => ofString "Left"
  | .right => ofString "Right"
  | .nonAssoc => ofString "NonAssoc"

def ofPrecedence (p : Precedence) : Json :=
  ofFields [("level", ofNat p.level), ("assoc", ofAssociativity p.assoc)]

def ofItem (i : Item) : Json := ofFields [("production", ofNat i.production), ("dot", ofNat i.dot)]

def ofAction : Action → Json
  | .shift target => ofFields [("Shift", ofNat target)]
  | .reduce production => ofFields [("Reduce", ofNat production)]
  | .goto target => ofFields [("GoTo", ofNat target)]
  | .accept => ofString "Accept"

def ofProductionRecord (r : ProductionRecord) : Json :=
  ofFields [("lhs", ofNat r.lhs), ("rhs", ofList ofNat r.rhs)]

def ofStateRecord (r : StateRecord) : Json :=
  ofFields [("items", ofList ofItem r.items),
    ("transitions", ofList (ofPair ofNat ofNat) r.transitions),
    ("actions", ofList (ofPair ofNat (ofList ofAction)) r.actions)]

def ofArtifact (a : Artifact) : Json :=
  ofFields [("version", ofNat a.version), ("lookahead", .bool a.lookahead),
    ("precedence", .bool a.precedence), ("symbols", ofList ofString a.symbols),
    ("productions", ofList ofProductionRecord a.productions),
    ("terminal_precedence", ofList (ofPair ofNat ofPrecedence) a.terminalPrecedence),
    ("production_precedence", ofList (ofPair ofNat ofPrecedence) a.productionPrecedence),
    ("states", ofList ofStateRecord a.states)]

/-- A choice without content may also be written with the content null. -/
def isUnit : Option Json → Bool
  | none => true
  | some .null => true
  | some _ => false

def associativity? (j : Json) : Option Associativity := do
  let (name, content) ← j.variant?
  if !isUnit content then none
  else match name with
    | "Left" => some .left
    | "Right" => some .right
    | "NonAssoc" => some .nonAssoc
    | _ => none

def precedence? (j : Json) : Option Precedence := do
  match ← j.fields? ["level", "assoc"] with
  | [level, assoc] =>
    let level ← level.word?
    let assoc ← assoc.associativity?
    some ⟨level, assoc⟩
  | _ => none

def item? (j : Json) : Option Item := do
  match ← j.fields? ["production", "dot"] with
  | [production, dot] =>
    let production ← production.word?
    let dot ← dot.word?
    some ⟨production, dot⟩
  | _ => none

def action? (j : Json) : Option Action := do
  match ← j.variant? with
  | ("Shift", some content) => content.word?.map .shift
  | ("Reduce", some content) => content.word?.map .reduce
  | ("GoTo", some content) => content.word?.map .goto
  | ("Accept", content) => if isUnit content then some .accept else none
  | _ => none

def productionRecord? (j : Json) : Option ProductionRecord := do
  match ← j.fields? ["lhs", "rhs"] with
  | [lhs, rhs] =>
    let lhs ← lhs.word?
    let rhs ← rhs.list? word?
    some ⟨lhs, rhs⟩
  | _ => none

def stateRecord? (j : Json) : Option StateRecord := do
  match ← j.fields? ["items", "transitions", "actions"] with
  | [items, transitions, actions] =>
    let items ← items.list? item?
    let transitions ← transitions.list? (pair? word? word?)
    let actions ← actions.list? (pair? word? (list? action?))
    some ⟨items, transitions, actions⟩
  | _ => none

def artifact? (j : Json) : Option Artifact := do
  match ← j.fields? ["version", "lookahead", "precedence", "symbols", "productions",
    "terminal_precedence", "production_precedence", "states"] with
  | [version, lookahead, precedence, symbols, productions, terminalPrecedence,
      productionPrecedence, states] =>
    let version ← version.natural? Artifact.versionBound
    let lookahead ← lookahead.boolean?
    let precedence ← precedence.boolean?
    let symbols ← symbols.list? text?
    let productions ← productions.list? productionRecord?
    let terminalPrecedence ← terminalPrecedence.list? (pair? word? precedence?)
    let productionPrecedence ← productionPrecedence.list? (pair? word? precedence?)
    let states ← states.list? stateRecord?
    some ⟨version, lookahead, precedence, symbols, productions, terminalPrecedence,
      productionPrecedence, states⟩
  | _ => none

end Json

namespace Artifact

def toText (a : Artifact) : String := String.ofList (Json.ofArtifact a).write

def ofText? (text : String) : Option Artifact := (Json.read text.toList).bind Json.artifact?

end Artifact

namespace Automaton

def write (a : Automaton) : String := a.toArtifact.toText

def read (text : String) (g : Grammar) : Except ArtifactError Automaton :=
  match Artifact.ofText? text with
  | some saved => saved.toAutomaton g
  | none => .error .malformed

end Automaton
end ForkingLR
