import Offside.Build.Run

/-!
# Watching a source

A watcher compiles its source whenever the file has changed.  A change shows in the
file's stamp, its time and size; after one the watcher waits for the writing to
settle, then reads the file.  A text equal to the last one that compiled is left
alone.

What others do while the watcher sleeps is a list of edits, so a whole run is a
recursion on the list of its sleeps.
-/
namespace Offside

/-- What tells two versions of an entry apart. -/
inductive Stamp
  | file (written : Moment) (size : Nat)
  | directory (created : Nat)
deriving DecidableEq, Repr

def Entry.stamp : Entry → Stamp
  | file bytes written => .file written bytes.length
  | directory created => .directory created

structure Watcher where
  options : Options
  /-- The source, absolute. -/
  input : Path
  output : Stream
  interval : Seconds
  debounce : Seconds
  /-- Whether reports go to the journal. -/
  reporting : Bool := true
  /-- The last text that was compiled and written. -/
  previous : Option (List Char) := none
  /-- The stamp of the file when it was last looked at. -/
  stamp : Option Stamp := none

inductive Escape
  | file (fault : FileFault)
  | noName (output : NoName)
  | sleep (fault : SleepFault)
  /-- The user asks to stop. -/
  | interrupt
deriving DecidableEq, Repr

def Escape.message : Escape → String
  | file fault => fault.message
  | noName output => output.message
  | sleep fault => fault.message
  | interrupt => ""

namespace Watcher

def refusal : String := "Watch mode requires a real input file path."

def new? (w : World) (o : Options) (input output : Stream) (interval debounce : Seconds)
    (reporting : Bool) : Option Watcher :=
  match input with
  | .standard => none
  | .file path =>
    some { options := o, input := (Path.ofString path).resolve w.here, output := output
           interval := interval, debounce := debounce, reporting := reporting }

def inputText (watcher : Watcher) : String := String.ofList watcher.input.text

def inputName (watcher : Watcher) : String := String.ofList watcher.input.name

def look (watcher : Watcher) (w : World) : Except FileFault (Option Stamp) :=
  match w.files.look w.here watcher.input with
  | .ok entry => .ok (some entry.stamp)
  | .error .missing => .ok none
  | .error cause => .error { cause := cause, path := watcher.input }

def tellReport (watcher : Watcher) (w : World) (r : Report) : World :=
  if watcher.reporting then w.tell (.report r) else w

/-- Compiles the source as it is now, unless it is missing or nothing is new in it. -/
def compile (watcher : Watcher) (w : World) : World × Watcher × Except Escape (Option Report) :=
  let input := Stream.file watcher.inputText
  match w.read input with
  | (w, .error (.notFound path)) =>
    (w.note .error (ReadFault.message (.notFound path)), watcher, .ok none)
  | (w, .error fault) =>
    let r : Report := { input := input, outcome := .readError fault }
    (watcher.tellReport (w.noteRead watcher.inputName fault) r, watcher, .ok (some r))
  | (w, .ok source) =>
    if watcher.previous == some source then
      (w.note .debug ("Skipping " ++ watcher.inputName ++ ": unchanged since last compile"),
        watcher, .ok none)
    else
      match w.build watcher.options input watcher.output (some source) with
      | (w, .error noName) => (w, watcher, .error (.noName noName))
      | (w, .ok r) =>
        let watcher := if r.success then { watcher with previous := some source } else watcher
        (watcher.tellReport w r, watcher, .ok (some r))

def initial (watcher : Watcher) (w : World) : World × Watcher × Except Escape (Option Report) :=
  match watcher.look w with
  | .error fault => (w, watcher, .error (.file fault))
  | .ok stamp => { watcher with stamp := stamp }.compile w

def stirred (watcher : Watcher) (w : World) : Except FileFault Bool :=
  (watcher.look w).map fun stamp => stamp.isSome && stamp != watcher.stamp

/-- One look at the source; `meanwhile` is what others do while a change settles. -/
def poll (watcher : Watcher) (meanwhile : List Edit) (w : World) :
    World × Watcher × Except Escape (Option Report) :=
  match watcher.stirred w with
  | .error fault => (w, watcher, .error (.file fault))
  | .ok false => (w, watcher, .ok none)
  | .ok true =>
    if watcher.debounce.isZero then watcher.initial w
    else
      match w.sleep watcher.debounce with
      | .error fault => (w, watcher, .error (.sleep fault))
      | .ok w => watcher.initial (w.endure meanwhile)

inductive Ending
  /-- It stops by itself. -/
  | stop
  /-- The user interrupts the next sleep. -/
  | interrupt
deriving DecidableEq, Repr

/-- Looks at the source again and again, once a sleep; each sleep is what others do meanwhile. -/
def cycle (ending : Ending) : List (List Edit) → Watcher → World →
    World × Watcher × Except Escape Unit
  | [], watcher, w =>
    match ending with
    | .stop => (w, watcher, .ok ())
    | .interrupt =>
      match w.sleep watcher.interval with
      | .error fault => (w, watcher, .error (.sleep fault))
      | .ok w => (w, watcher, .error .interrupt)
  | sleep :: sleeps, watcher, w =>
    match w.sleep watcher.interval with
    | .error fault => (w, watcher, .error (.sleep fault))
    | .ok w =>
      let w := w.endure sleep
      match watcher.stirred w with
      | .error fault => (w, watcher, .error (.file fault))
      | .ok false => cycle ending sleeps watcher w
      | .ok true =>
        if watcher.debounce.isZero then
          match watcher.initial w with
          | (w, watcher, .error e) => (w, watcher, .error e)
          | (w, watcher, .ok _) => cycle ending sleeps watcher w
        else
          match w.sleep watcher.debounce with
          | .error fault => (w, watcher, .error (.sleep fault))
          | .ok w =>
            match sleeps with
            | [] =>
              match ending with
              | .interrupt => (w, watcher, .error .interrupt)
              | .stop =>
                match watcher.initial w with
                | (w, watcher, .error e) => (w, watcher, .error e)
                | (w, watcher, .ok _) => (w, watcher, .ok ())
            | settle :: sleeps =>
              match watcher.initial (w.endure settle) with
              | (w, watcher, .error e) => (w, watcher, .error e)
              | (w, watcher, .ok _) => cycle ending sleeps watcher w

def run (watcher : Watcher) (ending : Ending) (sleeps : List (List Edit)) (w : World) :
    World × Watcher × Except Escape Unit :=
  match watcher.initial w with
  | (w, watcher, .error e) => (w, watcher, .error e)
  | (w, watcher, .ok _) =>
    cycle ending sleeps watcher (w.note .info ("Watching " ++ watcher.inputText))

end Watcher

end Offside
