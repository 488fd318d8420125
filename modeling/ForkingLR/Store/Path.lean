import ForkingLR.Text.Blank

/-! Paths as they are written, and the places they lead to. -/
namespace ForkingLR

/-- Where the names of a place begin: a number of levels above the root of the store, or at the
top of all directories. -/
inductive Base where
  | store (above : Nat)
  | top
  deriving DecidableEq, Repr

structure Place where
  base : Base := .store 0
  names : List String := []
  deriving DecidableEq, Repr

namespace Place

def parent : Place → Place
  | ⟨.store above, []⟩ => ⟨.store (above + 1), []⟩
  | ⟨.top, []⟩ => ⟨.top, []⟩
  | ⟨base, _ :: names⟩ => ⟨base, names⟩

def child (p : Place) (name : String) : Place := ⟨p.base, name :: p.names⟩

end Place

structure Path where
  fromTop : Bool
  names : List String
  closed : Bool
  deriving DecidableEq, Repr

namespace Path

def pieces : List Char → List (List Char)
  | [] => [[]]
  | c :: rest => if c = '/' then [] :: pieces rest else Text.attach c (pieces rest)

def textLimit : Nat := 4095

def nameLimit : Nat := 255

/-- Reads a path. Repeated slashes count once. An empty path leads nowhere, and neither does one
that holds the null character or goes over a limit. -/
def ofText? (text : String) : Option Path :=
  let names := ((pieces text.toList).filter fun p => !p.isEmpty).map String.ofList
  if text.isEmpty || text.toList.contains '\x00' || decide (textLimit < text.utf8ByteSize) ||
      names.any fun n => decide (nameLimit < n.utf8ByteSize) then none
  else some ⟨text.toList.head? == some '/', names, text.toList.getLast? == some '/'⟩

def start (p : Path) : Place := if p.fromTop then ⟨.top, []⟩ else {}

def steps (p : Path) : List String := p.names ++ if p.closed then ["."] else []

end Path
end ForkingLR
