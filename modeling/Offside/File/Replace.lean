import Offside.File.Tree

/-!
# Replacing a file in one step

Nobody shall see a half-written file: the bytes go into a temporary file beside the
target, which then takes the target's place.  If that fails, the temporary file is
removed again.  Directories made on the way stay.
-/
namespace Offside

def temporarySuffix : Name := ".boa.tmp".toList

structure NoName where
  path : Path
deriving DecidableEq, Repr

def NoName.message (n : NoName) : String := "PosixPath(" ++ quotePath n.path ++ ") has an empty name"

inductive ReplaceFault
  /-- A directory on the way could not be made, or a leftover could not be removed. -/
  | file (fault : FileFault)
  /-- Writing or moving the temporary file failed. -/
  | atomic (fault : FileFault)
deriving DecidableEq, Repr

def ReplaceFault.message : ReplaceFault → String
  | file fault => fault.message
  | atomic fault => "Atomic write failed: " ++ fault.message

namespace FileTree

/-- Takes the temporary file away after a failure.  A failure to do so is reported instead. -/
def discard (t : FileTree) (here : Place) (temporary : Path) (fault : FileFault) :
    FileTree × ReplaceFault :=
  match t.find here temporary with
  | .error other => (t, .file other)
  | .ok none => (t, .atomic fault)
  | .ok (some _) =>
    match t.removeFile here temporary with
    | .ok t => (t, .atomic fault)
    | .error cause => (t, .file { cause := cause, path := temporary })

def temporaryFor (target : Path) : Path := target.withName (target.name ++ temporarySuffix)

def writeAndMove (t : FileTree) (here : Place) (target : Path) (bytes : List UInt8) :
    FileTree × Except ReplaceFault Unit :=
  let temporary := temporaryFor target
  let fail (t : FileTree) (fault : FileFault) : FileTree × Except ReplaceFault Unit :=
    let (t, fault) := t.discard here temporary fault
    (t, .error fault)
  match t.writeFile here temporary bytes with
  | .error cause => fail t { cause := cause, path := temporary }
  | .ok written =>
    match written.moveFile here temporary target with
    | .error cause => fail written { cause := cause, path := temporary, target := some target }
    | .ok moved => (moved, .ok ())

/-- Replaces the file at `target`, or makes it, together with the directories it lies in. -/
def replaceFile (t : FileTree) (here : Place) (target : Path) (bytes : List UInt8) :
    FileTree × Except NoName (Except ReplaceFault Unit) :=
  match t.makeDirectories here target.parent with
  | (t, .error fault) => (t, .ok (.error (.file fault)))
  | (t, .ok ()) =>
    if target.name.isEmpty then (t, .error { path := target })
    else
      let (t, answer) := t.writeAndMove here target bytes
      (t, .ok answer)

end FileTree

end Offside
