/-! Grammar symbols. A name's spelling decides its kind: upper case for terminals, lower case
for nonterminals. -/
namespace ForkingLR

inductive SymbolKind where
  | terminal
  | nonterminal
  deriving DecidableEq, Repr

namespace SymbolKind

def rank : SymbolKind → Nat
  | .terminal => 0
  | .nonterminal => 1

theorem eqOfRank {a b : SymbolKind} (h : a.rank = b.rank) : a = b := by
  cases a <;> cases b <;> simp_all [rank]

def isNameTail (letter : Char → Bool) (c : Char) : Bool := c.isDigit || c == '_' || letter c

/-- The kind that a spelling stands for: a letter, then letters of the same case, digits and
underscores, all ASCII; the augmented start symbol is spelled with a dollar sign. -/
def ofName? (name : String) : Option SymbolKind :=
  if name = "$start" then some .nonterminal
  else match name.toList with
    | [] => none
    | c :: rest =>
      if c.isUpper && rest.all (isNameTail Char.isUpper) then some .terminal
      else if c.isLower && rest.all (isNameTail Char.isLower) then some .nonterminal
      else none

end SymbolKind

class GrammarSymbol (σ : Type) where
  isTerminal : σ → Bool

export GrammarSymbol (isTerminal)

structure Symbol where
  key : Nat
  kind : SymbolKind
  deriving DecidableEq, Repr

namespace Symbol

instance : Ord Symbol :=
  ⟨fun a b => (compare a.key b.key).then (compare a.kind.rank b.kind.rank)⟩

instance : Std.TransOrd Symbol :=
  inferInstanceAs (Std.TransCmp
    (compareLex (compareOn Symbol.key) (compareOn fun s : Symbol => s.kind.rank)))

instance : Std.LawfulEqOrd Symbol where
  eq_of_compare {a b} h := by
    have both := Ordering.then_eq_eq.1 (show (compare a.key b.key).then
      (compare a.kind.rank b.kind.rank) = .eq from h)
    have key := Std.LawfulEqOrd.eq_of_compare both.1
    have kind := SymbolKind.eqOfRank (Std.LawfulEqOrd.eq_of_compare both.2)
    cases a
    cases b
    cases key
    cases kind
    rfl

instance : GrammarSymbol Symbol := ⟨fun s => s.kind == .terminal⟩

def endOfInput : Symbol := ⟨0, .terminal⟩

def error : Symbol := ⟨1, .terminal⟩

def augmentedStart : Symbol := ⟨2, .nonterminal⟩

end Symbol
end ForkingLR
