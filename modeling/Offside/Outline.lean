import Offside.Forest
import Offside.Indentation

/-!
# From lines to a forest

A reader holds a stack of open blocks.  Each logical line closes blocks (a
smaller indent), stays in the open one (the same indent) or opens the block of
the heading right above it (one step deeper); anything else is a fault.  A line
that ends with a comma goes on in the next line if that has the same indent.

The reader is a plain value and its state survives a fault: what was recorded and
learned up to that point can still be looked at.
-/
namespace Offside

structure LogicalLine where
  text : List Char
  /-- The offset of the first physical line. -/
  offset : Nat
  indent : Nat
deriving DecidableEq, Repr

/-! ## Continuations -/

structure Joined where
  text : List Char
  lines : Nat
deriving DecidableEq, Repr

def joinText (text next : List Char) : List Char := trimRight text.dropLast ++ [',', ' '] ++ next

/-- Joins the following lines to `text` as long as it ends with a comma and the next line is
not blank and has the same indent. -/
def joinLines (ind : Indentation) (indent : Nat) : (text : List Char) → List Line →
    Indentation × Except Fault Joined
  | text, [] => (ind, .ok { text := text, lines := 0 })
  | text, line :: lines =>
    let next := trim line.text
    if text.getLast? == some ',' && !next.isEmpty then
      match ind.classify false line.text with
      | (learned, .error cause) => (learned, .error { cause := cause, index := line.offset })
      | (learned, .ok found) =>
        if found = indent then
          match joinLines learned indent (joinText text next) lines with
          | (after, .error fault) => (after, .error fault)
          | (after, .ok joined) => (after, .ok { joined with lines := joined.lines + 1 })
        else (learned, .ok { text := text, lines := 0 })
    else (ind, .ok { text := text, lines := 0 })

/-! ## Open blocks -/

/-- An open block: the indent of its lines, and the last statement in it.  Where the block is in the forest follows from
how many are open around it: it is the last one at that depth, and `Forest.add` goes down to it. -/
structure Frame where
  indent : Nat
  last : Option Statement := none
deriving DecidableEq, Repr

/-- The open blocks, innermost first.  The outermost one never closes. -/
structure Frames where
  top : Frame
  below : List Frame
deriving DecidableEq, Repr

namespace Frames

def base : Frames := { top := { indent := 0 }, below := [] }

def closeFrom (indent : Nat) (top : Frame) : List Frame → Frames
  | [] => { top := top, below := [] }
  | next :: below =>
    if indent < top.indent then closeFrom indent next below
    else { top := top, below := next :: below }

def close (frames : Frames) (indent : Nat) : Frames := closeFrom indent frames.top frames.below

def depth (frames : Frames) : Nat := frames.below.length

def indents (frames : Frames) : List Nat :=
  ((frames.top :: frames.below).map Frame.indent).reverse

def record (frames : Frames) (s : Statement) : Frames :=
  { frames with top := { frames.top with last := some s } }

def mayNest (frame : Frame) : Bool := frame.last.any Statement.isHeading

/-- Moves to the block that owns a line at `indent`.  Blocks closed and a step learned
before a fault stay so. -/
def enter (frames : Frames) (ind : Indentation) (indent : Nat) :
    Frames × Indentation × Except Cause Unit :=
  let kept := frames.close indent
  let top := kept.top
  if top.indent < indent then
    if mayNest top then
      let learned := ind.learnStep (indent - top.indent)
      if indent = top.indent + learned.step.getD 0 then
        ({ top := { indent := indent }, below := top :: kept.below }, learned, .ok ())
      else (kept, learned, .error .badJump)
    else (kept, ind, .error .unexpectedIndent)
  else if indent = top.indent then (kept, ind, .ok ())
  else (kept, ind, .error .unbalancedIndent)

end Frames

/-! ## Reading -/

structure Reader where
  indentation : Indentation := {}
  frames : Frames := .base
  logical : List LogicalLine := []
  sheet : Sheet := .nil
deriving DecidableEq, Repr

namespace Reader

def take (r : Reader) : Option Statement → Reader
  | none => r
  | some s => { r with frames := r.frames.record s, sheet := r.sheet.add r.frames.depth s }

/-- Reads the logical line that begins with `line`, and says how many of the following lines it
takes up. -/
def step (compact : Bool) (r : Reader) (line : Line) (following : List Line) :
    Reader × Except Fault Nat :=
  let stop (r : Reader) (cause : Cause) : Reader × Except Fault Nat :=
    (r, .error { cause := cause, index := line.offset })
  match r.indentation.classify true line.text with
  | (ind, .error cause) => stop { r with indentation := ind } cause
  | (ind, .ok indent) =>
    match r.frames.enter ind indent with
    | (frames, ind, .error cause) => stop { r with indentation := ind, frames := frames } cause
    | (frames, ind, .ok ()) =>
      match joinLines ind indent (trim line.text) following with
      | (ind, .error fault) => ({ r with indentation := ind, frames := frames }, .error fault)
      | (ind, .ok joined) =>
        let logical := { text := joined.text, offset := line.offset, indent := indent }
        let r := { r with indentation := ind, frames := frames, logical := r.logical ++ [logical] }
        match Statement.read compact joined.text with
        | .error cause => stop r cause
        | .ok s => (r.take s, .ok joined.lines)

/-- Reads lines, passing over the first `skip`, which have been joined to an earlier one. -/
def readFrom (compact : Bool) : (skip : Nat) → Reader → List Line → Reader × Except Fault Unit
  | _, r, [] => (r, .ok ())
  | skip + 1, r, _ :: lines => readFrom compact skip r lines
  | 0, r, line :: lines =>
    if allBlank line.text then readFrom compact 0 r lines
    else
      match r.step compact line lines with
      | (r, .error fault) => (r, .error fault)
      | (r, .ok skip) => readFrom compact skip r lines

end Reader

def readLines (compact : Bool) (lines : List Line) : Reader × Except Fault Unit :=
  Reader.readFrom compact 0 {} lines

end Offside
