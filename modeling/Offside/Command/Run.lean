import Offside.Build.Watch
import Offside.Command.Request
import Offside.Config.Load
import Offside.Console.Card

/-!
# Running a request

A run loads the project file, lets the command line override it, does the work and
says what the console shows.  What others do to the files while a watch sleeps is
given beforehand; the sleep after the last of these is interrupted by the user.
-/
namespace Offside.Command

open Console (Card Item)

inductive SetupFault
  | load (fault : Config.LoadFault)
  | negativeIndent
  /-- The option for the indent stands without a number. -/
  | indentMissing
deriving DecidableEq, Repr

def SetupFault.message : SetupFault → String
  | load fault => fault.message
  | negativeIndent => "--indent must not be negative"
  | indentMissing => "'<' not supported between instances of 'list' and 'int'"

/-- Whether the fault is one of the configuration, which the user is told about. -/
def SetupFault.isConfigFault : SetupFault → Bool
  | load fault => fault.isConfigFault
  | negativeIndent => true
  | indentMissing => false

inductive Verdict
  | exit (status : Nat)
  /-- No settings could be made, and not because of what the configuration says. -/
  | setupFault (fault : SetupFault)
  /-- The watched file could not be looked at. -/
  | fileFault (fault : FileFault)
  /-- The clock does not sleep so long. -/
  | sleepFault (fault : SleepFault)
deriving DecidableEq, Repr

structure Session where
  world : World
  console : List Item := []
  /-- What is written to standard error besides the console. -/
  stderr : String := ""
  verdict : Verdict

/-! ## What the console shows of the journal -/

/-- Debugging notes are shown only on demand, and of a watch's reports the failures. -/
def shown (verbose : Bool) : Event → List Item
  | .note n => if verbose || n.level ≠ .debug then [.log n] else []
  | .report r => if r.success then [] else (Card.of r).item?.toList
  | .slept _ => []

def shownFrom (w : World) (verbose : Bool) (n : Nat) : List Item :=
  (w.journal.drop n).flatMap (shown verbose)

def errorLine (label message : String) : Item :=
  .markup ("[bold red]" ++ label ++ ":[/bold red] " ++ Markup.safe message)

/-! ## Settings -/

def Choices.override (c : Choices) (o : Options) : Except SetupFault Options := do
  let indent ←
    match c.indent with
    | .unset => .ok o.indent
    | .divider => .error .indentMissing
    | .spaces n =>
      if n < 0 then .error .negativeIndent
      else (Config.spaces n).mapError fun refusal => .load (.refused refusal)
  let rootSelector := (c.rootSelector.getD "").toList
  return {
    indent := indent
    rootSelector := if rootSelector.isEmpty then o.rootSelector else rootSelector
    compact := c.compact || o.compact
    hoverGuard := !c.noHoverGuard && o.hoverGuard }

def Choices.configPath (c : Choices) : Option Path :=
  match c.config with
  | some path => if path.isEmpty then none else some (.ofString path)
  | none => none

def Choices.setup (c : Choices) (w : World) : World × Except SetupFault Config.Settings :=
  match Config.load w c.configPath none with
  | (w, .error fault) => (w, .error (.load fault))
  | (w, .ok loaded) =>
    (w, (c.override loaded.settings.options).map fun o => { loaded.settings with options := o })

/-! ## The commands -/

def Session.withReport (s : Session) (r : Report) : Session :=
  { s with console := s.console ++ (Card.of r).item?.toList }

/-- Builds once.  A success is shown only if standard output is not the target. -/
def runBuild (w : World) (verbose : Bool) (o : Options) (input output : String) : Session :=
  let (w, outcome) := w.build o (.ofName input) (.ofName output) none
  let console := shownFrom w verbose 0
  match outcome with
  | .error noName =>
    { world := w, console := console ++ [errorLine "Error" noName.message], verdict := .exit 1 }
  | .ok r =>
    let session : Session :=
      { world := w, console := console, verdict := .exit (if r.success then 0 else 1) }
    if r.success && output == standardName then session else session.withReport r

def watchPanel (input : String) : Item :=
  .panel
    { body := .markup ("[bold cyan]Watching[/bold cyan] " ++ input ++ " (Ctrl+C to exit)")
      border := "cyan"
      fit := true }

def terminated : Item := .markup "\n[bold red]Terminated by user.[/bold red]"

def runWatch (w : World) (verbose : Bool) (settings : Config.Settings) (input output : String)
    (meanwhile : List (List Edit)) : Session :=
  let before := shownFrom w verbose 0
  match Watcher.new? w settings.options (.ofName input) (.ofName output) (.real settings.interval)
      (.real settings.debounce) true with
  | none =>
    { world := w, console := before ++ [errorLine "Error" Watcher.refusal], verdict := .exit 1 }
  | some watcher =>
    let (after, _, outcome) := watcher.run .interrupt meanwhile w
    let console := before ++ [watchPanel input] ++ shownFrom after verbose w.journal.length
    match outcome with
    | .ok () => { world := after, console := console, verdict := .exit 0 }
    | .error (.file fault) => { world := after, console := console, verdict := .fileFault fault }
    | .error (.sleep .tooLong) => { world := after, console := console, verdict := .sleepFault .tooLong }
    | .error (.sleep fault) =>
      { world := after, console := console ++ [errorLine "Error" fault.message], verdict := .exit 1 }
    | .error (.noName noName) =>
      { world := after, console := console ++ [errorLine "Error" noName.message], verdict := .exit 1 }
    | .error .interrupt =>
      { world := after, console := console ++ [terminated], verdict := .exit 1 }

def checkAll (o : Options) : List String → World → World × List Report
  | [], w => (w, [])
  | input :: inputs, w =>
    let (w, r) := w.check o (.ofName input)
    let (w, rs) := checkAll o inputs w
    (w, r :: rs)

def overview (rs : List Report) : List Item :=
  if rs.length > 1 then
    let s := Summary.of (rs.map Tally.of)
    [Card.table (rs.map Card.of),
      Card.totals (toString s.successful) (toString s.total) (toString s.compileErrors)]
  else []

def runCheck (w : World) (verbose : Bool) (o : Options) (inputs : List String) : Session :=
  let (w, rs) := checkAll o inputs w
  { world := w
    console := shownFrom w verbose 0 ++ rs.flatMap (fun r => (Card.of r).item?.toList) ++ overview rs
    verdict := .exit (if rs.all Report.success then 0 else 1) }

/-! ## The program -/

def withSettings (w : World) (c : Choices) (go : World → Config.Settings → Session) : Session :=
  match c.setup w with
  | (w, .ok settings) => go w settings
  | (w, .error fault) =>
    let console := shownFrom w c.verbose 0
    if fault.isConfigFault then
      { world := w, console := console ++ [errorLine "Config error" fault.message], verdict := .exit 1 }
    else { world := w, console := console, verdict := .setupFault fault }

def Request.run (w : World) (meanwhile : List (List Edit)) : Request → Session
  | nothing => { world := w, stderr := usage, verdict := .exit 0 }
  | build c input output watch =>
    withSettings w c fun w settings =>
      if watch then runWatch w c.verbose settings input output meanwhile
      else runBuild w c.verbose settings.options input output
  | check c inputs =>
    withSettings w c fun w settings => runCheck w c.verbose settings.options inputs

def run (w : World) (meanwhile : List (List Edit)) (words : List String) : Session :=
  match Request.parse words with
  | .ok request => request.run w meanwhile
  | .error .help => { world := { w with stdout := w.stdout ++ usage.toList }, verdict := .exit 0 }
  | .error .version =>
    { world := { w with stdout := w.stdout ++ versionText.toList }, verdict := .exit 0 }
  | .error (.misuse program cause) =>
    { world := w, stderr := Stop.message (.misuse program cause), verdict := .exit 2 }

end Offside.Command
