import Offside.Build.World

/-!
# Builds and checks

A build reads a source, compiles it and writes the CSS; a check stops before
writing.  What goes wrong on the way ends up in the report, with one exception: an
output path without a last name is a mistake of the caller, and no report is made.
-/
namespace Offside

namespace World

def compile (w : World) (o : Options) (source : List Char) : World × Except Fault (List Char) :=
  match compileAll o source with
  | .error fault => (w, .error fault)
  | .ok c =>
    let w := w.note .debug ("Parsed " ++ toString c.logical.length ++ " logical lines into " ++
      toString c.sheet.size ++ " top-level nodes")
    (w.note .debug ("Generated " ++ toString c.css.length ++ " characters of CSS"), .ok c.css)

def noteRead (w : World) (label : String) : ReadFault → World
  | .notFound path => w.note .error (ReadFault.message (.notFound path))
  | fault => w.note .error ("Could not read " ++ label ++ ": " ++ fault.message)

def buildText (w : World) (o : Options) (input output : Stream) (source : List Char) :
    World × Except NoName Report :=
  let report (outcome : Outcome) : Except NoName Report :=
    .ok { input := input, outcome := outcome }
  match w.compile o source with
  | (w, .error fault) =>
    (w.note .debug ("Compile failed for " ++ input.name ++ ": " ++ fault.text),
      report (.compileError source fault))
  | (w, .ok css) =>
    let bytes := (Utf8.encode css).length
    match w.write css output with
    | (w, .error noName) => (w, .error noName)
    | (w, .ok (.error fault)) =>
      (w.note .error ("Write failed for " ++ output.name ++ ": " ++ fault.message),
        report (.writeError output bytes fault))
    | (w, .ok (.ok ())) =>
      (w.note .info ("Compiled " ++ input.name ++ (if o.compact then " (minified)" else "")),
        report (.compiled output bytes))

/-- Reads, compiles and writes.  A source that is given is not read. -/
def build (w : World) (o : Options) (input output : Stream) (source : Option (List Char)) :
    World × Except NoName Report :=
  match source with
  | some source => w.buildText o input output source
  | none =>
    match w.read input with
    | (w, .ok source) => w.buildText o input output source
    | (w, .error fault) =>
      (w.noteRead input.name fault, .ok { input := input, outcome := .readError fault })

def check (w : World) (o : Options) (input : Stream) : World × Report :=
  match w.read input with
  | (w, .error fault) => (w, { input := input, outcome := .readError fault })
  | (w, .ok source) =>
    match w.compile o source with
    | (w, .error fault) => (w, { input := input, outcome := .compileError source fault })
    | (w, .ok css) => (w, { input := input, outcome := .valid (Utf8.encode css).length })

end World

end Offside
