import Offside.Build.Report
import Offside.File.Edit
import Offside.Journal

/-!
# The surroundings of a run

Everything a run reads and changes, as one value: the files, the working directory,
what is left of standard input, what was written to standard output, and a journal
of the notes and reports so far.
-/
namespace Offside

/-- A time span as it was given: a whole number of seconds or a fraction. -/
inductive Seconds
  | whole (n : Int)
  | real (x : Float)
deriving DecidableEq, Repr

inductive SleepFault
  | notNumber
  | negative
  | tooLong
deriving DecidableEq, Repr

def SleepFault.message : SleepFault → String
  | notNumber => "Invalid value NaN (not a number)"
  | negative => "sleep length must be non-negative"
  | tooLong => "timestamp too large to convert to C _PyTime_t"

namespace Seconds

def isZero : Seconds → Bool
  | whole n => n == 0
  | real x => x == 0

/-- What a clock that counts nanoseconds in 64 bits says to a time. -/
def fault? : Seconds → Option SleepFault
  | whole n =>
    if n < -9223372036 || 9223372036 < n then some .tooLong
    else if n < 0 then some .negative
    else none
  | real x =>
    if x.isNaN then some .notNumber
    else if x * 1000000000.0 < -9223372036854775808.0 || 9223372036854775808.0 ≤ x * 1000000000.0 then some .tooLong
    else if x < 0 then some .negative
    else none

end Seconds

inductive Event
  | note (note : Note)
  | report (report : Report)
  /-- The run has slept. -/
  | slept (time : Seconds)
deriving DecidableEq, Repr

structure World where
  disk : Disk := {}
  /-- The working directory. -/
  here : Place
  /-- What the clock says to a time it does not sleep. -/
  sleepFault? : Seconds → Option SleepFault := fun _ => none
  /-- What reading standard input yields. -/
  stdin : Except Utf8.DecodeFault (List Char) := .ok []
  stdout : List Char := []
  journal : List Event := []

namespace World

def files (w : World) : FileTree := w.disk.files

def withFiles (w : World) (files : FileTree) : World :=
  { w with disk := { w.disk with files := files } }

def tell (w : World) (event : Event) : World := { w with journal := w.journal ++ [event] }

def note (w : World) (level : Level) (text : String) : World :=
  w.tell (.note { level := level, text := text })

def sleep (w : World) (time : Seconds) : Except SleepFault World :=
  match w.sleepFault? time with
  | some fault => .error fault
  | none => .ok (w.tell (.slept time))

def endure (w : World) (edits : List Edit) : World :=
  { w with disk := w.disk.applyAll w.here edits }

/-- Reads a source.  Standard input is read to its end, once; a file is decoded and its line
breaks are unified. -/
def read (w : World) : Stream → World × Except ReadFault (List Char)
  | .standard => ({ w with stdin := .ok [] }, w.stdin.mapError .decode)
  | .file path =>
    let answer :=
      match w.files.find w.here (Path.ofString path) with
      | .error fault => .error (.file fault)
      | .ok (some (.file bytes _)) => (Utf8.readText bytes).mapError .decode
      | .ok _ => .error (.notFound path)
    (w, answer)

def write (w : World) (css : List Char) : Stream → World × Except NoName (Except ReplaceFault Unit)
  | .standard => ({ w with stdout := w.stdout ++ css }, .ok (.ok ()))
  | .file path =>
    let (files, answer) := w.files.replaceFile w.here (Path.ofString path) (Utf8.encode css)
    (w.withFiles files, answer)

end World

end Offside
