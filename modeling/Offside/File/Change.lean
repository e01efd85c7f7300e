import Offside.File.Tree

/-!
# Changes between two trees

A run works on a tree that was taken from a disk.  What it has changed is carried
over to the disk afterwards: directories first, outer ones before inner ones, then
files, and removals last.
-/
namespace Offside

inductive Change
  | makeDirectory (place : Place)
  | write (place : Place) (bytes : List UInt8)
  | remove (place : Place)
deriving DecidableEq, Repr

namespace FileTree

/-- The directories of `after` that `before` does not have, outer ones first. -/
def newDirectories (before after : FileTree) : List Place :=
  let places := after.entries.filterMap fun (place, entry) =>
    match entry, before.get? place with
    | .directory _, none => some place
    | _, _ => none
  places.mergeSort fun a b => a.length ≤ b.length

def newFiles (before after : FileTree) : List (Place × List UInt8) :=
  after.entries.filterMap fun (place, entry) =>
    match entry with
    | .file bytes _ => if before.get? place = some entry then none else some (place, bytes)
    | .directory _ => none

def goneFiles (before after : FileTree) : List Place :=
  before.entries.filterMap fun (place, entry) =>
    match entry, after.get? place with
    | .file _ _, none => some place
    | _, _ => none

def changes (before after : FileTree) : List Change :=
  (before.newDirectories after).map .makeDirectory ++
    (before.newFiles after).map (fun f => .write f.1 f.2) ++
    (before.goneFiles after).map .remove

end FileTree

end Offside
