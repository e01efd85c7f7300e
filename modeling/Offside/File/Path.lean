import Offside.Text.CharClass

/-!
# Paths

A path is a number of leading slashes that count and a list of names.  Empty names
and `.` are dropped when it is read; `..` stays, because what it means depends on
the directories it goes through.
-/
namespace Offside

abbrev Name := List Char

structure Path where
  /-- 0 for a relative path, 1 for an absolute one, 2 for one that begins with exactly two slashes. -/
  root : Nat
  names : List Name
deriving DecidableEq, Repr

namespace Path

def upward : Name := ['.', '.']

def pieces : List Char → List Name
  | [] => [[]]
  | c :: cs =>
    if c == '/' then [] :: pieces cs
    else
      match pieces cs with
      | [] => [[c]]
      | name :: names => (c :: name) :: names

def rootOf (cs : List Char) : Nat :=
  match (cs.takeWhile (· == '/')).length with
  | 0 => 0
  | 2 => 2
  | _ => 1

def ofChars (cs : List Char) : Path :=
  { root := rootOf cs
    names := (pieces cs).filter fun name => !name.isEmpty && name != ['.'] }

def ofString (s : String) : Path := ofChars s.toList

/-- A path as text; the empty one is written `.`. -/
def text (p : Path) : List Char :=
  if p.root = 0 && p.names.isEmpty then ['.']
  else List.replicate p.root '/' ++ ['/'].intercalate p.names

def name (p : Path) : Name := p.names.getLast?.getD []

def parent (p : Path) : Path := { p with names := p.names.dropLast }

def withName (p : Path) (name : Name) : Path := { p with names := p.names.dropLast ++ [name] }

def child (p : Path) (name : Name) : Path := { p with names := p.names ++ [name] }

/-- Adds names to a place, where `..` takes the last one away again. -/
def climb : List Name → List Name → List Name
  | place, [] => place
  | place, name :: names =>
    climb (if name == upward then place.dropLast else place ++ [name]) names

/-- The path seen from the directory `base`, absolute and without `..`. -/
def resolve (base : List Name) (p : Path) : Path :=
  if p.root = 0 then { root := 1, names := climb base p.names }
  else { p with names := climb [] p.names }

end Path

end Offside
