import ForkingLR.Automaton

/-! Saved tables. An artifact names each symbol once and refers to it by number, so it can be
loaded for any grammar that spells the same productions with the same precedences. -/
namespace ForkingLR

structure ProductionRecord where
  lhs : Nat
  rhs : List Nat
  deriving DecidableEq, Repr

structure StateRecord where
  items : List Item
  transitions : List (Nat × Nat)
  actions : List (Nat × List Action)
  deriving DecidableEq, Repr

structure Artifact where
  version : Nat
  lookahead : Bool
  precedence : Bool
  symbols : List String
  productions : List ProductionRecord
  terminalPrecedence : List (Nat × Precedence)
  productionPrecedence : List (Nat × Precedence)
  states : List StateRecord
  deriving DecidableEq, Repr

namespace Artifact

def schemaVersion : Nat := 2

end Artifact

def Grammar.resolvedPrecedence (g : Grammar) : List (Nat × Precedence) :=
  (List.range g.size).filterMap fun id => (g.productionPrecedence? id).map (id, ·)

namespace Automaton

def stateSymbols (s : State) : List Symbol := s.transitions.keys ++ s.rows.keys

def usedSymbols (a : Automaton) : List Symbol :=
  (a.grammar.productions.flatMap (fun p => p.lhs :: p.rhs) ++
    a.grammar.precedence.declared.map Prod.fst ++
    a.states.flatMap stateSymbols).eraseDups

def toArtifact (a : Automaton) : Artifact :=
  let used := a.usedSymbols
  let number (symbol : Symbol) : Nat := used.idxOf symbol
  { version := Artifact.schemaVersion
    lookahead := a.config.lookahead
    precedence := a.config.precedence
    symbols := used.map a.name
    productions := a.grammar.productions.map fun p => ⟨number p.lhs, p.rhs.map number⟩
    terminalPrecedence := a.grammar.precedence.declared.map fun e => (number e.1, e.2)
    productionPrecedence := a.grammar.resolvedPrecedence
    states := a.states.map fun s =>
      { items := s.items
        transitions := s.transitions.entries.map fun e => (number e.1, e.2)
        actions := s.rows.entries.map fun e => (number e.1, e.2) } }

end Automaton

namespace Artifact

def fail {α : Type} (reason : Mismatch) : Except ArtifactError α := .error (.mismatch reason)

def resolveNames (g : Grammar) (names : List String) : Except ArtifactError (List Symbol) :=
  names.mapM fun name =>
    match g.symbols.lookup? name with
    | some symbol => .ok symbol
    | none => fail (.unknownSymbol name)

def symbolAt (symbols : List Symbol) (index : Nat) : Except ArtifactError Symbol :=
  match symbols[index]? with
  | some symbol => .ok symbol
  | none => fail (.symbolIndex index)

def checkProduction (symbols : List Symbol) (record : ProductionRecord) (id : Nat)
    (p : Production Symbol) : Except ArtifactError Unit := do
  let rhs ← record.rhs.mapM (symbolAt symbols)
  let lhs ← symbolAt symbols record.lhs
  if lhs = p.lhs ∧ rhs = p.rhs then pure () else fail (.production id)

def checkProductions (symbols : List Symbol) :
    Nat → List ProductionRecord → List (Production Symbol) → Except ArtifactError Unit
  | id, record :: records, p :: productions => do
    checkProduction symbols record id p
    checkProductions symbols (id + 1) records productions
  | _, _, _ => pure ()

def compareDeclared (a b : Symbol × Precedence) : Ordering :=
  (compare a.2.level b.2.level).then (compare a.1 b.1)

def declaredIn (symbols : List Symbol) (saved : List (Nat × Precedence)) :
    Except ArtifactError (List (Symbol × Precedence)) := do
  let declared ← saved.mapM fun e => do
    let symbol ← symbolAt symbols e.1
    pure (symbol, e.2)
  pure (declared.mergeSort fun a b => (compareDeclared a b).isLE)

/-- Later entries under one symbol replace earlier ones. -/
def stateOf (symbols : List Symbol) (record : StateRecord) : Except ArtifactError State := do
  let transitions ← record.transitions.mapM fun e => do
    let symbol ← symbolAt symbols e.1
    pure (symbol, e.2)
  let rows ← record.actions.mapM fun e => do
    let symbol ← symbolAt symbols e.1
    pure (symbol, e.2)
  pure (rows.foldl (fun s row => s.setRow row.1 row.2)
    { items := record.items, transitions := SortedMap.ofList transitions })

def toAutomaton (saved : Artifact) (g : Grammar) : Except ArtifactError Automaton := do
  if saved.version ≠ schemaVersion then throw (.version saved.version schemaVersion)
  let symbols ← resolveNames g saved.symbols
  if saved.productions.length ≠ g.size then
    fail (.productionCount saved.productions.length g.size)
  checkProductions symbols 0 saved.productions g.productions
  let declared ← declaredIn symbols saved.terminalPrecedence
  if declared ≠ g.precedence.declared ∨ saved.productionPrecedence ≠ g.resolvedPrecedence then
    fail .precedence
  let states ← saved.states.mapM (stateOf symbols)
  pure ⟨g, states, saved.lookahead, saved.precedence⟩

end Artifact
end ForkingLR
