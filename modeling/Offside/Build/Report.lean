import Offside.Compile
import Offside.File.Replace
import Offside.Text.Utf8

/-!
# Reports

Every build and every check ends in a report: which source it was about and what
became of it.  The fields a report shows are not kept one by one but derived from
that one outcome, so that no two of them can disagree.
-/
namespace Offside

/-- Where a source comes from and where CSS goes to. -/
inductive Stream
  /-- Standard input or output. -/
  | standard
  | file (path : String)
deriving DecidableEq, Repr

def standardName : String := "-"

def Stream.ofName (name : String) : Stream := if name == standardName then .standard else .file name

def Stream.name : Stream → String
  | standard => standardName
  | file path => path

inductive ReadFault
  /-- There is no file at the path. -/
  | notFound (path : String)
  | file (fault : FileFault)
  | decode (fault : Utf8.DecodeFault)
deriving DecidableEq, Repr

def ReadFault.message : ReadFault → String
  | notFound path => "Input file not found: " ++ path
  | file fault => fault.message
  | decode fault => fault.message

inductive Outcome
  /-- CSS of so many bytes was written. -/
  | compiled (output : Stream) (bytes : Nat)
  /-- CSS of so many bytes could not be written. -/
  | writeError (output : Stream) (bytes : Nat) (fault : ReplaceFault)
  /-- The source compiles to so many bytes. -/
  | valid (bytes : Nat)
  | readError (fault : ReadFault)
  | compileError (source : List Char) (fault : Fault)
deriving DecidableEq, Repr

structure Report where
  input : Stream
  outcome : Outcome
deriving DecidableEq, Repr

namespace Report

def status (r : Report) : String :=
  match r.outcome with
  | .compiled _ _ => "COMPILED"
  | .writeError _ _ _ => "WRITE_ERROR"
  | .valid _ => "VALID"
  | .readError (.notFound _) => "FILE_NOT_FOUND"
  | .readError _ => "READ_ERROR"
  | .compileError _ _ => "COMPILE_ERROR"

def success (r : Report) : Bool :=
  match r.outcome with
  | .compiled _ _ => true
  | .valid _ => true
  | _ => false

def written (r : Report) : Bool :=
  match r.outcome with
  | .compiled _ _ => true
  | _ => false

def output? (r : Report) : Option Stream :=
  match r.outcome with
  | .compiled output _ => some output
  | .writeError output _ _ => some output
  | _ => none

def bytes? (r : Report) : Option Nat :=
  match r.outcome with
  | .compiled _ bytes => some bytes
  | .writeError _ bytes _ => some bytes
  | .valid bytes => some bytes
  | _ => none

def error? (r : Report) : Option String :=
  match r.outcome with
  | .writeError _ _ fault => some fault.message
  | .readError fault => some fault.message
  | .compileError _ fault => some fault.cause.message
  | _ => none

end Report

/-! ## Summaries -/

structure Summary where
  total : Nat
  successful : Nat
  failed : Nat
  compileErrors : Nat
  written : Nat
deriving DecidableEq, Repr

structure Tally where
  success : Bool
  compileError : Bool
  written : Bool
deriving DecidableEq, Repr

def Tally.of (r : Report) : Tally :=
  { success := r.success, compileError := r.status == "COMPILE_ERROR", written := r.written }

def Summary.of (tallies : List Tally) : Summary :=
  let successful := tallies.countP Tally.success
  { total := tallies.length
    successful := successful
    failed := tallies.length - successful
    compileErrors := tallies.countP Tally.compileError
    written := tallies.countP Tally.written }

end Offside
