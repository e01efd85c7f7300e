import Offside.Config.Value

/-!
# Places in a project file

A project file is read from its front.  A cursor holds what is left of it and where that
begins: how many characters came before, on which line, and how far from its start.
-/
namespace Offside.Config

/-! ## Characters -/

/-- Between the parts of a line only spaces and tabs count as blank. -/
def isGap (c : Char) : Bool := c == ' ' || c == '\t'

def isSeparator (c : Char) : Bool := c == '\u2028' || c == '\u2029'

def isBreak (c : Char) : Bool := c == '\n' || c == '\r' || c == '\u0085' || isSeparator c

/-- Whether a line is over: at its break or at the end of the file.  The separators are breaks
where one is looked for, but they end neither a word nor a comment. -/
def endsLine : Option Char → Bool
  | none => true
  | some c => c == '\n' || c == '\r' || c == '\u0085'

def endsWord (c : Option Char) : Bool := endsLine c || c.any isGap

/-- The mark of byte order, which takes no room on its line. -/
def orderMark : Char := '\uFEFF'

/-! ## Cursors -/

structure Cursor where
  rest : List Char
  index : Nat := 0
  line : Nat := 0
  column : Nat := 0
deriving DecidableEq, Repr

namespace Cursor

def head? (c : Cursor) : Option Char := c.rest.head?

def second? (c : Cursor) : Option Char := (c.rest.drop 1).head?

def atEnd (c : Cursor) : Bool := c.rest.isEmpty

def step (c : Cursor) : Cursor :=
  match c.rest with
  | [] => c
  | ch :: rest =>
    if ch == '\n' || (ch == '\r' && rest.head? != some '\n') then
      { rest := rest, index := c.index + 1, line := c.line + 1, column := 0 }
    else
      { rest := rest, index := c.index + 1, line := c.line
        column := if ch == orderMark then c.column else c.column + 1 }

def skip : Nat → Cursor → Cursor
  | 0, c => c
  | n + 1, c => skip n c.step

def skipWhile (c : Cursor) (p : Char → Bool) : Cursor := skip (c.rest.takeWhile p).length c

def skipSpaces (c : Cursor) : Cursor := c.skipWhile (· == ' ')

/-- The break that stands here and what follows it.  Every break counts as a line feed, but a
separator stays what it is. -/
def lineBreak? (c : Cursor) : Option (Char × Cursor) :=
  match c.rest with
  | '\r' :: '\n' :: _ => some ('\n', c.skip 2)
  | ch :: _ =>
    if isSeparator ch then some (ch, c.step) else if isBreak ch then some ('\n', c.step) else none
  | [] => none

def atMark (mark : Char) (c : Cursor) : Bool :=
  c.rest.take 3 == [mark, mark, mark] && endsWord (c.rest.drop 3).head?

def atDivider (c : Cursor) : Bool := c.atMark '-' || c.atMark '.'

end Cursor

abbrev Read (α : Type) := Except Flaw (α × Cursor)

end Offside.Config
