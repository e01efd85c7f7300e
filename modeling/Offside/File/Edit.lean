import Offside.File.Tree

/-!
# Changes from outside

While a run goes on, others may write, create and remove files.  An edit makes the
directories it needs; one that the tree refuses comes to nothing.  A file that is
written gets the time its writer names, or else the second after the last one used.
-/
namespace Offside

inductive Edit
  | write (path : Path) (bytes : List UInt8) (second : Option Int)
  | makeDirectory (path : Path)
  | remove (path : Path)
deriving DecidableEq, Repr

/-- A tree, and the second of the last edit. -/
structure Disk where
  files : FileTree := {}
  clock : Int := 1000000000
deriving DecidableEq, Repr

namespace Disk

def apply (d : Disk) (here : Place) : Edit → Disk
  | .write path bytes second =>
    let (files, _) := d.files.makeDirectories here path.parent
    let time := second.getD (d.clock + 1)
    match files.locate here path with
    | .ok place => { files := files.put place (.file bytes (.second time)), clock := time }
    | .error _ => { d with files := files }
  | .makeDirectory path => { d with files := (d.files.makeDirectories here path).1 }
  | .remove path =>
    match d.files.locate here path with
    | .ok place => { d with files := d.files.eraseAll place }
    | .error _ => d

def applyAll (d : Disk) (here : Place) (edits : List Edit) : Disk :=
  edits.foldl (fun d e => d.apply here e) d

end Disk

end Offside
