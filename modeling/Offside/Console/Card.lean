import Offside.Build.Report
import Offside.Console.Excerpt
import Offside.Console.Markup

/-!
# Report cards

What the console says of a report.  A card holds the fields that are shown; each of
them may be unknown, and then a placeholder stands in its place.
-/
namespace Offside.Console

structure Card where
  file : Option String := none
  status : Option String := none
  success : Bool := false
  output : Option String := none
  bytes : Option String := none
  error : Option String := none
  code : String := "CompileError"
  line : Int := 1
  column : Int := 1
  index : Int := 0
  source : List Char := []
deriving DecidableEq, Repr

def unknown : String := "None"

namespace Card

def of (r : Report) : Card :=
  let card : Card :=
    { file := some r.input.name
      status := some r.status
      success := r.success
      output := r.output?.map Stream.name
      bytes := r.bytes?.map toString
      error := r.error? }
  match r.outcome with
  | .compileError source fault =>
    let position := fault.position source
    { card with
      code := fault.cause.code
      line := position.line
      column := position.column
      index := fault.index
      source := source }
  | _ => card

def fileText (c : Card) : String := Markup.safe (c.file.getD unknown)

def errorText (c : Card) : String := Markup.safe (c.error.getD unknown)

/-! ## Single reports -/

def header (c : Card) : String :=
  "[bold red]" ++ c.code ++ "[/bold red]: " ++ c.errorText ++ "\n[dim]" ++ c.fileText ++ ":" ++
    toString c.line ++ ":" ++ toString c.column ++ " (offset " ++ toString c.index ++ ")[/dim]"

def showCompileError (c : Card) : Item :=
  let body : Body :=
    if c.source.isEmpty then .markup c.header
    else
      .table { headers := [""], rows := [[.markup c.header], [.excerpt (.around c.source c.line)]] }
  .panel { body := body, title := some "Compile Failed", border := "red" }

def target (c : Card) : String :=
  match c.output with
  | some output => if output.isEmpty || output == standardName then "" else " → " ++ output
  | none => ""

def showFailure (c : Card) : Item :=
  .markup ("[bold red]✖ " ++ c.status.getD unknown ++ ":[/bold red] " ++ c.errorText)

/-- A card as the console shows it.  A success that does not say which cannot be shown. -/
def item? (c : Card) : Option Item :=
  if c.status = some "COMPILE_ERROR" then some c.showCompileError
  else if c.success then
    c.status.map fun status =>
      .markup ("[bold green]✔[/bold green] " ++ status.toLower ++ ": " ++ c.fileText ++ c.target)
  else some c.showFailure

/-! ## Many reports -/

def row (c : Card) : List Cell :=
  let colour := if c.success then "green" else "red"
  [.markup c.fileText, .markup ("[" ++ colour ++ "]" ++ c.status.getD unknown ++ "[/" ++ colour ++ "]"),
    .markup (c.bytes.getD "-"), .markup (if c.success then "✅" else "❌")]

def table (cards : List Card) : Item :=
  .table
    { title := some "Boa Build Report"
      headers := ["Source", "Status", "Bytes", "Result"]
      rows := cards.map row }

def totals (successful total compileErrors : String) : Item :=
  .markup ("[dim]" ++ successful ++ "/" ++ total ++ " succeeded, " ++ compileErrors ++
    " compile error(s)[/dim]")

end Card

end Offside.Console
