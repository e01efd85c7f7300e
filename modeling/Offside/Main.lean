import Offside.Command.Run
import Offside.Console.Plain
import Offside.File.Change

/-!
# The program

The outer layer: it takes the files a request is about from the disk, lets the
request run on them, and carries the changes over to the disk.  Messages go to
standard error, so that standard output holds nothing but CSS.
-/
namespace Offside.Main

open Command (Request Choices Session Verdict)

/-! ## From and to the disk -/

def placeText (place : Place) : String := String.ofList (Path.text { root := 1, names := place })

def readEntry (place : Place) : IO (Option Entry) := do
  let path := (← IO.currentDir) / placeText place
  try
    let info ← path.metadata
    match info.type with
    | .dir => return some (.directory 0)
    | _ =>
      let bytes ← IO.FS.readBinFile path
      let nanoseconds := info.modified.sec * 1000000000 + info.modified.nsec.toNat
      return some (.file bytes.toList (.second nanoseconds))
  catch _ => return none

def wayTo (here : Place) (path : Path) : List Place :=
  let names := (path.resolve here).names
  (List.range (names.length + 1)).map names.take

def snapshot (here : Place) (paths : List Path) : IO FileTree := do
  let places := ((wayTo here { root := 0, names := [] }) ++ paths.flatMap (wayTo here)).eraseDups
  let mut files : FileTree := {}
  for place in places do
    if !place.isEmpty then
      if let some entry ← readEntry place then
        files := files.put place entry
  return files

/-- Carries one change over to the disk. A file is replaced in one step. -/
def apply : Change → IO Unit
  | .makeDirectory place => IO.FS.createDirAll (placeText place)
  | .write place bytes => do
    let temporary := placeText place ++ String.ofList temporarySuffix
    IO.FS.writeBinFile temporary ⟨bytes.toArray⟩
    IO.FS.rename temporary (placeText place)
  | .remove place => IO.FS.removeFile (placeText place)

def commit (before after : FileTree) : IO Unit := (before.changes after).forM apply

partial def readAll (stream : IO.FS.Stream) (bytes : List UInt8) : IO (List UInt8) := do
  let more ← stream.read 65536
  if more.isEmpty then return bytes else readAll stream (bytes ++ more.toList)

/-! ## Requests -/

def configPaths (c : Choices) : List Path :=
  c.configPath.toList ++ Config.usualNames.map fun name => { root := 0, names := [name] }

def streamPaths (name : String) : List Path :=
  match Stream.ofName name with
  | .standard => []
  | .file path => [.ofString path]

def pathsOf : Request → List Path
  | .nothing => []
  | .build c input output _ =>
    configPaths c ++ streamPaths input ++ streamPaths output ++ (streamPaths output).map FileTree.temporaryFor
  | .check c inputs => configPaths c ++ inputs.flatMap streamPaths

def readsStdin : Request → Bool
  | .nothing => false
  | .build _ input _ _ => Stream.ofName input = .standard
  | .check _ inputs => inputs.any fun input => Stream.ofName input = .standard

def surroundings (request : Request) : IO World := do
  let here := (Path.ofString (← IO.currentDir).toString).names
  let files ← snapshot here (pathsOf request)
  let stdin ←
    if readsStdin request then
      pure ((Utf8.decode (← readAll (← IO.getStdin) [])).map unifyBreaks)
    else pure (.ok [])
  return { disk := { files := files }, here := here, sleepFault? := Seconds.fault?, stdin := stdin }

/-! ## Messages -/

def display (items : List Console.Item) : IO Unit :=
  items.forM fun item => item.plain.forM IO.eprintln

def finish (before : World) (s : Session) : IO UInt32 := do
  commit before.files s.world.files
  IO.print (String.ofList s.world.stdout)
  display s.console
  if !s.stderr.isEmpty then IO.eprintln s.stderr
  match s.verdict with
  | .exit status => return status.toUInt32
  | .setupFault fault => IO.eprintln fault.message; return 1
  | .fileFault fault => IO.eprintln fault.message; return 1
  | .sleepFault fault => IO.eprintln fault.message; return 1

/-! ## Watching -/

def sleep (time : Seconds) : IO (Option SleepFault) := do
  if let some fault := time.fault? then return some fault
  match time with
  | .whole n => IO.sleep (n.toNat * 1000).toUInt32
  | .real x => IO.sleep (x * 1000).toUInt32
  return none

partial def watch (request : Request) (verbose : Bool) (watcher : Watcher) : IO UInt32 := do
  if let some fault ← sleep watcher.interval then
    IO.eprintln fault.message
    return 1
  match watcher.stirred (← surroundings request) with
  | .error fault => IO.eprintln fault.message; return 1
  | .ok false => watch request verbose watcher
  | .ok true =>
    if let some fault ← sleep watcher.debounce then
      IO.eprintln fault.message
      return 1
    let before ← surroundings request
    let (after, watcher, outcome) := watcher.initial before
    commit before.files after.files
    IO.print (String.ofList after.stdout)
    display (Command.shownFrom after verbose 0)
    match outcome with
    | .error e => IO.eprintln e.message; return 1
    | .ok _ => watch request verbose watcher

def startWatch (request : Request) (c : Choices) (input output : String) : IO UInt32 := do
  let before ← surroundings request
  match c.setup before with
  | (_, .error _) => finish before (request.run before [])
  | (w, .ok settings) =>
    match Watcher.new? w settings.options (.ofName input) (.ofName output) (.real settings.interval)
        (.real settings.debounce) true with
    | none => finish before (request.run before [])
    | some watcher =>
      display (Command.shownFrom w c.verbose 0 ++ [Command.watchPanel input])
      let (after, watcher, outcome) := watcher.run .stop [] w
      commit before.files after.files
      IO.print (String.ofList after.stdout)
      display (Command.shownFrom after c.verbose w.journal.length)
      match outcome with
      | .error e => IO.eprintln e.message; return 1
      | .ok () => watch request c.verbose watcher

end Offside.Main

def main (words : List String) : IO UInt32 := do
  match Offside.Command.Request.parse words with
  | .ok (.build c input output true) =>
    Offside.Main.startWatch (.build c input output true) c input output
  | .ok request =>
    let before ← Offside.Main.surroundings request
    Offside.Main.finish before (request.run before [])
  | .error _ =>
    let before ← Offside.Main.surroundings .nothing
    Offside.Main.finish before (Offside.Command.run before [] words)
