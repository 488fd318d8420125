import ForkingLR.Grammar
import ForkingLR.Reach
import ForkingLR.Table.Item

/-! Closure of item sets and the sets one symbol further. -/
namespace ForkingLR

namespace Grammar

def leftCorners (g : Grammar) (lhs : Symbol) : List Symbol :=
  (g.cfg.productionsFor lhs).filterMap fun e => e.1.rhs.head?.filter fun s => !isTerminal s

def awaited (g : Grammar) (items : List Item) : List Symbol :=
  (items.filterMap (Item.next? g.productions)).filter fun s => !isTerminal s

def predicted (g : Grammar) (items : List Item) : List Symbol :=
  Reach.closure g.leftCorners g.size (g.awaited items)

def beginnings (g : Grammar) (lhs : Symbol) : List Item :=
  (g.cfg.productionsFor lhs).map fun e => ⟨e.2, 0⟩

def closeItems (g : Grammar) (kernel : List Item) : List Item :=
  ((SortedSet.ofList kernel).insertMany ((g.predicted kernel).flatMap g.beginnings)).toList

def nextSymbols (g : Grammar) (items : List Item) : List Symbol :=
  (items.filterMap (Item.next? g.productions)).eraseDups

def gotoItems (g : Grammar) (items : List Item) (symbol : Symbol) : List Item :=
  g.closeItems ((items.filter fun i => i.next? g.productions = some symbol).map Item.advance)

def initialItems (g : Grammar) : List Item := g.closeItems [⟨g.startProduction, 0⟩]

end Grammar
end ForkingLR
