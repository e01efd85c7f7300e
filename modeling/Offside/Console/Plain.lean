import Offside.Console.Excerpt
import Offside.Console.Markup
import Offside.Source

/-!
# Items without styles

The console's items as lines of plain text, for a screen that shows no colours and
draws no borders.
-/
namespace Offside.Console

def numbered (marked number : Int) (line : List Char) : String :=
  (if number = marked then "> " else "  ") ++ toString number ++ " " ++ String.ofList line

def Excerpt.plain (e : Excerpt) : List String :=
  let lines := (splitLines 0 (place e.source)).map Line.text
  let shown := lines.zipIdx.filter fun (_, i) => e.first ≤ i + 1 && (i + 1 : Int) ≤ e.last
  shown.map fun (line, i) => numbered e.marked (i + 1) line

def Cell.plain : Cell → List String
  | markup text => [Markup.plain text]
  | excerpt e => e.plain

def rowPlain (row : List Cell) : List String :=
  match row with
  | [cell] => cell.plain
  | cells => ["  ".intercalate (cells.flatMap Cell.plain)]

def Table.plain (t : Table) : List String :=
  t.title.toList ++ (if t.headers.length > 1 then ["  ".intercalate t.headers] else []) ++
    t.rows.flatMap rowPlain

def Body.plain : Body → List String
  | markup text => [Markup.plain text]
  | table t => t.plain

def Panel.plain (p : Panel) : List String := p.title.toList ++ p.body.plain

def Item.plain : Item → List String
  | markup text => [Markup.plain text]
  | log note => [note.level.name ++ " " ++ note.text]
  | panel p => p.plain
  | table t => t.plain

end Offside.Console
