import ForkingLR.Cfg.Analysis
import ForkingLR.Grammar
import ForkingLR.Table.State

/-! The state-tagged grammar. Each symbol carries the state it is read in, so that FOLLOW in the
tagged grammar tells the contexts of one nonterminal apart. -/
namespace ForkingLR

structure TaggedSymbol where
  state : Nat
  symbol : Symbol
  deriving DecidableEq, Repr

namespace TaggedSymbol

instance : Ord TaggedSymbol :=
  ⟨fun a b => (compare a.state b.state).then (compare a.symbol b.symbol)⟩

instance : Std.TransOrd TaggedSymbol :=
  inferInstanceAs (Std.TransCmp
    (compareLex (compareOn TaggedSymbol.state) (compareOn TaggedSymbol.symbol)))

instance : Std.LawfulEqOrd TaggedSymbol where
  eq_of_compare {a b} h := by
    have both := Ordering.then_eq_eq.1 (show (compare a.state b.state).then
      (compare a.symbol b.symbol) = .eq from h)
    have state := Std.LawfulEqOrd.eq_of_compare both.1
    have symbol := Std.LawfulEqOrd.eq_of_compare both.2
    cases a
    cases b
    cases state
    cases symbol
    rfl

instance : GrammarSymbol TaggedSymbol := ⟨fun t => isTerminal t.symbol⟩

end TaggedSymbol

namespace Grammar

def step (g : Grammar) (states : List State) (source : Nat) (symbol : Symbol) : Except Fault Nat :=
  match states[source]?.bind fun s => s.transitions.get? symbol with
  | some target => .ok target
  | none => .error (.missingTransition source (g.name symbol))

def walk (g : Grammar) (states : List State) : Nat → List Symbol → Except Fault Nat
  | cursor, [] => .ok cursor
  | cursor, symbol :: rest => do
    let target ← g.step states cursor symbol
    g.walk states target rest

/-- Tags each symbol with the state it is read in; the transition after the last one has to
exist too. -/
def tagRhs (g : Grammar) (states : List State) :
    Nat → List Symbol → Except Fault (List TaggedSymbol)
  | _, [] => .ok []
  | cursor, symbol :: rest => do
    let target ← g.step states cursor symbol
    let tail ← g.tagRhs states target rest
    pure (⟨cursor, symbol⟩ :: tail)

def awaitedIn (g : Grammar) (states : List State) : List TaggedSymbol :=
  (states.zipIdx.flatMap fun (s, id) =>
    (s.items.filterMap (Item.next? g.productions)).filterMap fun symbol =>
      if isTerminal symbol then none else some ⟨id, symbol⟩).eraseDups

def tagProductions (g : Grammar) (states : List State) (lhs : TaggedSymbol) :
    Except Fault (List (Production TaggedSymbol)) :=
  (g.cfg.productionsFor lhs.symbol).mapM fun e => do
    let rhs ← g.tagRhs states lhs.state e.1.rhs
    pure ⟨lhs, rhs⟩

end Grammar

structure TaggedGrammar where
  cfg : Cfg TaggedSymbol
  nonterminals : List TaggedSymbol

namespace TaggedGrammar

def start : TaggedSymbol := ⟨0, .augmentedStart⟩

def derive (g : Grammar) (states : List State) : Except Fault TaggedGrammar := do
  let awaited := (g.awaitedIn states).filter (· ≠ start)
  let productions ← awaited.mapM (g.tagProductions states)
  pure {
    cfg := ⟨⟨start, [⟨0, g.start⟩]⟩ :: productions.flatten, some start, ⟨0, .endOfInput⟩⟩
    nonterminals := start :: awaited }

def untaggedFollow (follows : Cfg.Analysis TaggedSymbol) (symbol : TaggedSymbol) : SortedSet Symbol :=
  SortedSet.ofList ((follows.follow symbol).toList.map TaggedSymbol.symbol)

end TaggedGrammar
end ForkingLR
