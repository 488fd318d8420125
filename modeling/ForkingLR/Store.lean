import ForkingLR.Error
import ForkingLR.Store.Path

/-! A store of files and directories with modification times in seconds. Every step of a path
but the last has to lead to a directory. -/
namespace ForkingLR

inductive Entry where
  | file (text : String) (modified : Nat)
  | directory (modified : Nat)
  deriving DecidableEq, Repr

def Entry.modified : Entry → Nat
  | .file _ modified => modified
  | .directory modified => modified

structure Store where
  entries : List (Place × Entry) := []
  created : Nat := 0
  deriving DecidableEq, Repr

namespace Store

/-- What is at a place. The directories where names begin are always there. -/
def at? (s : Store) (p : Place) : Option Entry :=
  match s.entries.lookup p with
  | some entry => some entry
  | none => if p.names.isEmpty then some (.directory s.created) else none

def isDirectory (s : Store) (p : Place) : Bool :=
  match s.at? p with
  | some (.directory _) => true
  | _ => false

def walk? (s : Store) : Place → List String → Option Place
  | p, [] => some p
  | p, name :: rest =>
    if s.isDirectory p then
      if name = "." then s.walk? p rest
      else if name = ".." then s.walk? p.parent rest
      else s.walk? (p.child name) rest
    else none

def resolve? (s : Store) (path : String) : Option Place := do
  let p ← Path.ofText? path
  s.walk? p.start p.steps

def find? (s : Store) (path : String) : Option Entry := do
  let p ← s.resolve? path
  s.at? p

def modified? (s : Store) (path : String) : Option Nat := (s.find? path).map Entry.modified

def erase (s : Store) (p : Place) : Store :=
  { s with entries := s.entries.filter fun e => decide (e.1 ≠ p) }

def put (s : Store) (p : Place) (entry : Entry) : Store :=
  { s with entries := (p, entry) :: (s.erase p).entries }

def writeText (s : Store) (path text : String) (time : Nat) : Except ArtifactError Store :=
  match s.resolve? path with
  | some p => if s.isDirectory p then .error (.inaccessible path) else .ok (s.put p (.file text time))
  | none => .error (.inaccessible path)

def readText (s : Store) (path : String) : Except ArtifactError String :=
  match s.find? path with
  | some (.file text _) => .ok text
  | some (.directory _) => .error .malformed
  | none => .error (.inaccessible path)

def remove (s : Store) (path : String) : Store :=
  match s.resolve? path with
  | some p => if s.isDirectory p then s else s.erase p
  | none => s

def makeDirectories? (time : Nat) : Store → Place → List String → Option Store
  | s, _, [] => some s
  | s, p, name :: rest =>
    if name = "." then makeDirectories? time s p rest
    else if name = ".." then makeDirectories? time s p.parent rest
    else match s.at? (p.child name) with
      | some (.file _ _) => none
      | some (.directory _) => makeDirectories? time s (p.child name) rest
      | none => makeDirectories? time (s.put (p.child name) (.directory time)) (p.child name) rest

def makeDirectory (s : Store) (path : String) (time : Nat) : Store :=
  ((Path.ofText? path).bind fun p => makeDirectories? time s p.start p.names).getD s

def touch (s : Store) (path : String) (time : Nat) : Store :=
  match s.resolve? path with
  | none => s
  | some p =>
    match s.at? p with
    | some (.file text _) => s.put p (.file text time)
    | some (.directory _) => s.put p (.directory time)
    | none => s

end Store
end ForkingLR
