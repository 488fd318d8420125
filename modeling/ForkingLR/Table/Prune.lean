import ForkingLR.Table.Lookahead

/-! Removal of reductions outside their lookahead sets. With `onlyConflicts` a reduction is
removed only while its row still holds another action. -/
namespace ForkingLR

namespace State

def pruneOne (onlyConflicts : Bool) (lookahead : SortedSet Symbol) (production : Nat) (s : State)
    (terminal : Symbol) : State :=
  if terminal ∈ lookahead then s
  else if onlyConflicts && !s.conflictOn terminal then s
  else s.removeAction terminal (.reduce production)

/-- Goes through the productions in ascending order and, for each, through the terminals. -/
def prune (onlyConflicts : Bool) (terminals : List Symbol) (lookahead : Nat → SortedSet Symbol)
    (s : State) : State :=
  s.reductions.foldl (fun s production =>
    terminals.foldl (pruneOne onlyConflicts (lookahead production) production) s) s

end State

def pruneByLookahead (states : List State) (lookaheads : Lookaheads) (terminals : List Symbol)
    (onlyConflicts : Bool) : List State :=
  states.mapIdx fun id s =>
    s.prune onlyConflicts terminals fun production => lookaheads.getD ⟨id, production⟩ ∅

end ForkingLR
