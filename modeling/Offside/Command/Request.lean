import Offside.Build.Report
import Offside.Command.Arguments
import Offside.Number.Whole

/-!
# Requests

What a command line asks for.  The program has two commands: `build` writes CSS,
`check` only looks.  Both take the same options; `build` also takes one for
watching.
-/
namespace Offside.Command

inductive IndentChoice
  | unset
  | spaces (n : Int)
  /-- The divider was given.  It is no word of its own, so that there is nothing to count. -/
  | divider
deriving DecidableEq, Repr

structure Choices where
  compact : Bool := false
  noHoverGuard : Bool := false
  indent : IndentChoice := .unset
  rootSelector : Option String := none
  /-- The project file. -/
  config : Option String := none
  verbose : Bool := false
deriving DecidableEq, Repr

inductive Request
  /-- No command was given. -/
  | nothing
  | build (choices : Choices) (input output : String) (watch : Bool)
  | check (choices : Choices) (inputs : List String)
deriving DecidableEq, Repr

inductive Stop
  | help
  | version
  | misuse (program : String) (cause : Misuse)
deriving DecidableEq, Repr

/-! ## Grammars -/

def programName : String := "boa"

def helpOption : Opt := { switch := .help, names := ["-h".toList, "--help".toList] }

def commonOptions : List Opt :=
  [helpOption,
   { switch := .compact, names := ["-m".toList, "--minify".toList, "--compact".toList] },
   { switch := .noHoverGuard, names := ["--no-hover-guard".toList] },
   { switch := .indent, names := ["--indent".toList], takesValue := true },
   { switch := .rootSelector, names := ["--root-selector".toList], takesValue := true },
   { switch := .config, names := ["--config".toList], takesValue := true },
   { switch := .verbose, names := ["--verbose".toList] }]

def watchOption : Opt := { switch := .watch, names := ["-w".toList, "--watch".toList] }

def buildName : Word := "build".toList

def checkName : Word := "check".toList

def mainGrammar : Grammar :=
  { program := programName
    options := [helpOption, { switch := .version, names := ["-v".toList, "--version".toList] }]
    arity := .subcommand }

def buildGrammar : Grammar :=
  { program := programName ++ " " ++ String.ofList buildName
    options := commonOptions ++ [watchOption]
    arity := .upTo 2 }

def checkGrammar : Grammar :=
  { program := programName ++ " " ++ String.ofList checkName
    options := commonOptions
    arity := .many }

/-! ## Meaning -/

structure Draft where
  choices : Choices := {}
  watch : Bool := false
  places : List (List Word) := []
  left : List Word := []
deriving DecidableEq, Repr

namespace Draft

/-- A value in words; the divider is none. -/
def given (value : Word) : Option String :=
  if value = dividerWord then none else some (String.ofList value)

/-- An option; of two values for one option the last counts. -/
def set (program : String) (d : Draft) (o : Opt) (value : Word) : Except Stop Draft :=
  match o.switch with
  | .help => .error .help
  | .version => .error .version
  | .compact => .ok { d with choices := { d.choices with compact := true } }
  | .noHoverGuard => .ok { d with choices := { d.choices with noHoverGuard := true } }
  | .indent =>
    if value = dividerWord then .ok { d with choices := { d.choices with indent := .divider } }
    else
      match Number.readWhole? value with
      | some n => .ok { d with choices := { d.choices with indent := .spaces n } }
      | none => .error (.misuse program (.notNumber o value))
  | .rootSelector => .ok { d with choices := { d.choices with rootSelector := given value } }
  | .config => .ok { d with choices := { d.choices with config := given value } }
  | .verbose => .ok { d with choices := { d.choices with verbose := true } }
  | .watch => .ok { d with watch := true }

def step (program : String) (d : Draft) : Step → Except Stop Draft
  | .set o value => d.set program o value
  | .fill words => .ok { d with places := words }
  | .leave word => .ok { d with left := d.left ++ [word] }
  | .refuse misuse => .error (.misuse program misuse)

def place (d : Draft) (i : Nat) : List String := (d.places.getD i []).map String.ofList

end Draft

def Grammar.draft (g : Grammar) (ws : List Word) : Except Stop Draft :=
  (g.read ws).foldlM (Draft.step g.program) {}

def Draft.toBuild (d : Draft) : Request :=
  .build d.choices ((d.place 0).head?.getD standardName) ((d.place 1).head?.getD standardName) d.watch

def Draft.toCheck (d : Draft) : Request :=
  .check d.choices (if (d.place 0).isEmpty then [standardName] else d.place 0)

def complete (left : List Word) (request : Request) : Except Stop Request :=
  if left.isEmpty then .ok request else .error (.misuse programName (.leftOver left))

def Request.parse (words : List String) : Except Stop Request := do
  let main ← mainGrammar.draft (words.map String.toList)
  match main.places with
  | [command :: rest] =>
    if command = buildName then
      let d ← buildGrammar.draft rest
      complete (main.left ++ d.left) d.toBuild
    else if command = checkName then
      let d ← checkGrammar.draft rest
      complete (main.left ++ d.left) d.toCheck
    else .error (.misuse programName (.unknownCommand command [buildName, checkName]))
  | _ => complete main.left .nothing

/-! ## Texts -/

def versionText : String := programName ++ " v1.0.0\n"

def Stop.message : Stop → String
  | help => ""
  | version => versionText
  | misuse program cause => program ++ ": error: " ++ cause.message

def usage : String :=
  "usage: boa [-h] [-v] Command ...\n\n" ++
  "Indentation-based stylesheets compiled to nested CSS.\n\n" ++
  "commands:\n" ++
  "  build [input] [output]  compile a stylesheet to CSS\n" ++
  "  check [input ...]       validate stylesheets without writing\n\n" ++
  "options of both commands:\n" ++
  "  -m, --minify, --compact  strip comments and collapse whitespace\n" ++
  "  --no-hover-guard         do not wrap :hover rules in @media (hover: hover)\n" ++
  "  --indent N               spaces per output indent level (default: 2)\n" ++
  "  --root-selector SEL      selector wrapping top-level variables (default: :root)\n" ++
  "  --config PATH            project config file (default: ./boa.yaml)\n" ++
  "  --verbose                show debug logging\n\n" ++
  "options of build:\n" ++
  "  -w, --watch              recompile when the source changes\n\n" ++
  "Input and output default to '-', which is standard input and output.\n"

end Offside.Command
