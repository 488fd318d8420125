import ForkingLR.Interner
import ForkingLR.Symbol
import ForkingLR.Error

/-! The symbols of one grammar. Every table begins with the end marker, the error terminal and
the augmented start symbol, and only ever holds well-spelled names. -/
namespace ForkingLR

structure SymbolTable where
  names : Interner
  reserved : ["EOS", "ERROR", "$start"] <+: names.entries
  spelled : ∀ name ∈ names.entries, (SymbolKind.ofName? name).isSome
  deriving DecidableEq

namespace SymbolTable

def new : SymbolTable :=
  ⟨⟨["EOS", "ERROR", "$start"], by decide⟩, List.prefix_rfl, by decide⟩

instance : Inhabited SymbolTable := ⟨new⟩

def size (t : SymbolTable) : Nat := t.names.size

def add (t : SymbolTable) (name : String) (spelled : (SymbolKind.ofName? name).isSome) :
    Nat × SymbolTable :=
  ((t.names.intern name).1,
    ⟨(t.names.intern name).2, t.reserved.trans (t.names.entriesPrefix name), by
      intro other h
      rcases t.names.memEntriesIntern.1 h with h | rfl
      · exact t.spelled other h
      · exact spelled⟩)

def intern (name : String) : EStateM GrammarError SymbolTable Symbol := fun t =>
  if name = "$start" then .error (.reservedSymbol name) t
  else match h : SymbolKind.ofName? name with
    | none => .error (.invalidSymbol name) t
    | some kind =>
      let added := t.add name (by rw [h]; rfl)
      .ok ⟨added.1, kind⟩ added.2

/-- Interns a name that must be a terminal; a well-spelled name of the other kind stays interned. -/
def internTerminal (name : String) : EStateM GrammarError SymbolTable Symbol := do
  let symbol ← intern name
  if isTerminal symbol then pure symbol else throw (.expectedTerminal name)

def internNonterminal (name : String) : EStateM GrammarError SymbolTable Symbol := do
  let symbol ← intern name
  if isTerminal symbol then throw (.expectedNonterminal name) else pure symbol

def lookup? (t : SymbolTable) (name : String) : Option Symbol := do
  let key ← t.names.key? name
  let kind ← SymbolKind.ofName? name
  pure ⟨key, kind⟩

def name (t : SymbolTable) (symbol : Symbol) : String := (t.names.resolve? symbol.key).getD ""

def symbols (t : SymbolTable) : List Symbol := t.names.entries.filterMap t.lookup?

end SymbolTable
end ForkingLR
