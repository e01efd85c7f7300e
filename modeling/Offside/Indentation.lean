import Offside.Source
import Offside.Fault

/-!
# Indentation

What a file's leading blanks mean is learned while it is read: the style (spaces
or tabs) from the first indented line, the step (the width of one level) from the
first line nested under another.  Neither changes once learned.  `classify`
answers with the indentation it has learned even when it refuses the line.
-/
namespace Offside

inductive Style
  | space
  | tab
deriving DecidableEq, Repr

structure Indentation where
  style : Option Style := none
  step : Option Nat := none
deriving DecidableEq, Repr

def tabWidth : Nat := 4

/-- The style of a character of the leading run; `none` ends the run. -/
def Style.of? (c : Char) : Option Style :=
  if c == ' ' then some .space else if c == '\t' then some .tab else none

namespace Indentation

/-- Once the step is known, a tab is one step wide. -/
def width (ind : Indentation) : Style → Nat
  | .space => 1
  | .tab => ind.step.getD tabWidth

def agrees (known : Option Style) (style : Style) : Bool := known == none || known == some style

/-- Adds up the leading run, given the width and the style read so far. -/
def measureFrom (ind : Indentation) : Nat → Option Style → List Char → Except Cause (Nat × Option Style)
  | total, used, [] => .ok (total, used)
  | total, used, c :: cs =>
    match Style.of? c with
    | none => .ok (total, used)
    | some style =>
      if agrees ind.style style && agrees used style then
        ind.measureFrom (total + ind.width style) (some style) cs
      else .error .mixedIndentation

def measure (ind : Indentation) (text : List Char) : Except Cause (Nat × Option Style) :=
  ind.measureFrom 0 none text

/-- The first indented line fixes the style. -/
def learnStyle (ind : Indentation) (indent : Nat) (used : Option Style) : Indentation :=
  if indent > 0 && ind.style == none then { ind with style := used } else ind

/-- The first nesting jump fixes the step. -/
def learnStep (ind : Indentation) (width : Nat) : Indentation :=
  match ind.step with
  | none => { ind with step := some width }
  | some _ => ind

def checkStep (ind : Indentation) (indent : Nat) : Except Cause Unit :=
  match ind.step with
  | none => .ok ()
  | some step =>
    if indent = 0 then .ok ()
    else if step = 0 then .error .zeroStep
    else if indent % step = 0 then .ok ()
    else .error .offStep

/-- Measures a line and learns the style from it; `checked` also asks that the
indent fits the step. -/
def classify (ind : Indentation) (checked : Bool) (text : List Char) :
    Indentation × Except Cause Nat :=
  match ind.measure text with
  | .error cause => (ind, .error cause)
  | .ok (indent, used) =>
    let learned := ind.learnStyle indent used
    match if checked then learned.checkStep indent else .ok () with
    | .error cause => (learned, .error cause)
    | .ok () => (learned, .ok indent)

end Indentation

end Offside
