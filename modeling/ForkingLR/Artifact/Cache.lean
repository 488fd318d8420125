import ForkingLR.Artifact.Text
import ForkingLR.Store

/-! Tables kept in a file. A saved table is reused while it is no older than its source, loads
for the grammar, was built with the same configuration and passes the row check. -/
namespace ForkingLR

structure TableCache where
  path : String
  source : Option String := none
  deriving DecidableEq, Repr

namespace TableCache

def isFresh (c : TableCache) (s : Store) : Bool :=
  match s.modified? c.path with
  | none => false
  | some saved =>
    match c.source with
    | none => true
    | some source => (s.modified? source).any fun time => decide (time ≤ saved)

end TableCache

namespace Automaton

def save (a : Automaton) (s : Store) (path : String) (time : Nat) : Except ArtifactError Store :=
  s.writeText path a.write time

def load (s : Store) (path : String) (g : Grammar) : Except ArtifactError Automaton := do
  let text ← s.readText path
  read text g

def reuse? (g : Grammar) (config : TableConfig) (cache : TableCache) (s : Store) :
    Option Automaton :=
  if cache.isFresh s then
    match load s cache.path g with
    | .error _ => none
    | .ok a => if a.config = config ∧ a.check.isOk then some a else none
  else none

def loadOrBuild (g : Grammar) (config : TableConfig) (cache : TableCache) (s : Store)
    (time : Nat) : Except ConstructionError Automaton × Store :=
  match reuse? g config cache s with
  | some a => (.ok a, s)
  | none =>
    match build g config with
    | .error e => (.error e, s)
    | .ok a =>
      match a.save s cache.path time with
      | .error e => (.error (.artifact e), s)
      | .ok s => (.ok a, s)

end Automaton
end ForkingLR
