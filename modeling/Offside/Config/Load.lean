import Offside.Build.World
import Offside.Config.Document
import Offside.Config.Settings

/-!
# Loading a project file

The project file is the one asked for, or else the first of the usual names that is
a file in the directory searched.  No file means the usual settings.

What the file system and the reader of the format answer is a parameter
(`Access`); `load` takes the answers from the files of the run and from
`readDocument`.
-/
namespace Offside.Config

def usualNames : List Name := ["boa.yaml".toList, ".boa.yaml".toList]

inductive LoadFault
  | notFound (path : Path)
  | malformed (path : Path)
  /-- A part of the file has no value, although the file keeps the rules of its format. -/
  | flawed (flaw : Flaw)
  | refused (refusal : Refusal)
  | decode (fault : Utf8.DecodeFault)
  | file (fault : FileFault)
  /-- There is no working directory to search. -/
  | nowhere (cause : FileCause)
deriving DecidableEq, Repr

def LoadFault.message : LoadFault → String
  | notFound path => "Config file not found: " ++ String.ofList path.text
  | malformed path => "Invalid YAML in " ++ String.ofList path.text
  | flawed flaw => flaw.message
  | refused refusal => refusal.message
  | decode fault => fault.message
  | file fault => fault.message
  | nowhere cause => cause.message

def LoadFault.isConfigFault : LoadFault → Bool
  | notFound _ => true
  | malformed _ => true
  | refused refusal => refusal.isConfigFault
  | flawed _ | decode _ | file _ | nowhere _ => false

def LoadFault.ofFlaw (path : Path) : Flaw → LoadFault
  | .malformed => .malformed path
  | flaw => .flawed flaw

structure Loaded where
  settings : Settings := {}
  source : Option Path := none
deriving Repr

/-- What loading asks of its surroundings. -/
structure Access where
  here : Except FileCause Path
  isFile : Path → Except FileFault Bool
  bytes : Path → Except FileFault (List UInt8)
  /-- The value that a text stands for. -/
  value : List Char → Except Flaw Value

namespace Access

def findIn (a : Access) (directory : Path) : List Name → Except FileFault (Option Path)
  | [] => .ok none
  | name :: names =>
    match a.isFile (directory.child name) with
    | .error fault => .error fault
    | .ok true => .ok (some (directory.child name))
    | .ok false => a.findIn directory names

def choose (a : Access) (path directory : Option Path) : Except LoadFault (Option Path) :=
  match path with
  | some path =>
    match a.isFile path with
    | .error fault => .error (.file fault)
    | .ok false => .error (.notFound path)
    | .ok true => .ok (some path)
  | none =>
    match directory.elim a.here .ok with
    | .error cause => .error (.nowhere cause)
    | .ok directory => (a.findIn directory usualNames).mapError .file

def read (a : Access) (path : Path) : List Note × Except LoadFault Loaded :=
  match a.bytes path with
  | .error fault => ([], .error (.file fault))
  | .ok bytes =>
    match Utf8.readText bytes with
    | .error fault => ([], .error (.decode fault))
    | .ok text =>
      match a.value text with
      | .error flaw => ([], .error (.ofFlaw path flaw))
      | .ok value =>
        match Settings.ofValue value with
        | .error refusal => (unknownNotes value, .error (.refused refusal))
        | .ok settings =>
          (unknownNotes value ++ [{ level := .debug, text := "Loaded config from " ++ String.ofList path.text }],
            .ok { settings := settings, source := some path })

def load (a : Access) (path directory : Option Path) : List Note × Except LoadFault Loaded :=
  match a.choose path directory with
  | .error fault => ([], .error fault)
  | .ok none => ([], .ok {})
  | .ok (some path) => a.read path

end Access

/-! ## The files of a run -/

def access (w : World) : Access where
  here :=
    match w.files.get? w.here with
    | some (.directory _) => .ok { root := 1, names := w.here }
    | _ => .error .missing
  isFile p := (w.files.find w.here p).map fun
    | some (.file _ _) => true
    | _ => false
  bytes p :=
    match w.files.look w.here p with
    | .ok (.file bytes _) => .ok bytes
    | .ok (.directory _) => .error { cause := .isDirectory, path := p }
    | .error cause => .error { cause := cause, path := p }
  value := readDocument

def load (w : World) (path directory : Option Path) : World × Except LoadFault Loaded :=
  let (notes, answer) := (access w).load path directory
  (notes.foldl (fun w n => w.tell (.note n)) w, answer)

end Offside.Config
