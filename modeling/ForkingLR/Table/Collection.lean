import ForkingLR.Table.Closure
import ForkingLR.Table.State

/-! The LR(0) collection: every item set reachable from the initial one, numbered in order of
discovery, and the table that reduces under every terminal. -/
namespace ForkingLR.Grammar

def allItems (g : Grammar) : List Item :=
  g.productions.zipIdx.flatMap fun (p, id) => (List.range (p.rhs.length + 1)).map fun dot => ⟨id, dot⟩

def setBound (g : Grammar) : Nat := Nat.pow 2 g.allItems.length

def successors (g : Grammar) (items : List Item) : List (List Item) :=
  (g.nextSymbols items).map (g.gotoItems items)

def collection (g : Grammar) : List (List Item) :=
  Reach.closure g.successors g.setBound [g.initialItems]

def completed (g : Grammar) (items : List Item) : List Nat :=
  (items.filter (Item.atEnd g.productions)).map Item.production

def completion? (g : Grammar) (terminal : Symbol) (production : Nat) : Option Action :=
  if production = g.startProduction then
    if terminal = .endOfInput then some .accept else none
  else if terminal = .error then none
  else some (.reduce production)

def advanceAction (symbol : Symbol) (target : Nat) : Action :=
  if isTerminal symbol then .shift target else .goto target

def transitionsOf (g : Grammar) (sets : List (List Item)) (items : List Item) :
    SortedMap Symbol Nat :=
  SortedMap.ofList ((g.nextSymbols items).map fun s => (s, sets.idxOf (g.gotoItems items s)))

def rowOf (g : Grammar) (transitions : SortedMap Symbol Nat) (items : List Item) (symbol : Symbol) :
    List Action :=
  ((transitions.get? symbol).map (advanceAction symbol)).toList ++
    if isTerminal symbol then (g.completed items).filterMap (g.completion? symbol) else []

def stateOf (g : Grammar) (sets : List (List Item)) (items : List Item) : State :=
  let transitions := g.transitionsOf sets items
  (transitions.keys ++ g.terminals).foldl
    (fun s symbol => s.setRow symbol (g.rowOf transitions items symbol))
    { items, transitions }

def lr0States (g : Grammar) : List State :=
  let sets := g.collection
  sets.map (g.stateOf sets)

end ForkingLR.Grammar
