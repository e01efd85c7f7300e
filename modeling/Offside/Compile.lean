import Offside.Outline
import Offside.Output

/-!
# Compiling a stylesheet

The whole way from a source to CSS: prepare the lines, read them into a forest,
write the forest.  Either there is one fault or there is the complete text; a
compilation never answers with a part of it.
-/
namespace Offside

structure Compilation where
  lines : List Line
  logical : List LogicalLine
  sheet : Sheet
  css : List Char
deriving DecidableEq, Repr

/-- A sheet as CSS.  Nothing in a sheet can stop its emission, so the state at a stop is never
asked for. -/
def Sheet.css (o : Options) (sheet : Sheet) : List Char :=
  match Output.emit o 0 false sheet {} with
  | .ok out => out.render o
  | .error (_, out) => out.render o

def compileAll (o : Options) (source : List Char) : Except Fault Compilation :=
  let lines := prepare o.compact source
  match readLines o.compact lines with
  | (_, .error fault) => .error fault
  | (r, .ok ()) =>
    .ok { lines := lines, logical := r.logical, sheet := r.sheet, css := Sheet.css o r.sheet }

def compile (o : Options) (source : List Char) : Except Fault (List Char) :=
  (compileAll o source).map Compilation.css

end Offside
