import Offside.Text.CharClass
import Offside.Text.Search

/-!
# Prepared source

A source text is read as physical lines.  Every line break (LF, CRLF or a lone
CR) is read as LF, and comments may be taken out first; whatever happens to a
character, it keeps the position it had in the text it came from.  So a line's
`offset` always points into the caller's text.
-/
namespace Offside

abbrev Placed := Char × Nat

/-- One physical line without its break.  `offset` is the position of its first
character; of its break, if the line is empty; of the end of the source, if
nothing is left. -/
structure Line where
  text : List Char
  offset : Nat
deriving DecidableEq, Repr

/-! ## Line breaks -/

def unifyBreaks : List Char → List Char
  | [] => []
  | '\r' :: '\n' :: cs => '\n' :: unifyBreaks cs
  | '\r' :: cs => '\n' :: unifyBreaks cs
  | c :: cs => c :: unifyBreaks cs

def placeFrom : Nat → List Char → List Placed
  | _, [] => []
  | i, '\r' :: '\n' :: cs => ('\n', i) :: placeFrom (i + 2) cs
  | i, '\r' :: cs => ('\n', i) :: placeFrom (i + 1) cs
  | i, c :: cs => (c, i) :: placeFrom (i + 1) cs

/-- The characters of a source with every line break read as LF, each at the
position where it begins. -/
def place (source : List Char) : List Placed := placeFrom 0 source

theorem placeFrom_map_fst (i : Nat) (cs : List Char) :
    (placeFrom i cs).map Prod.fst = unifyBreaks cs := by
  fun_induction placeFrom i cs <;> simp_all [unifyBreaks]

/-! ## Taking comments out

First the block comments that are closed, then the line comments that begin a
line or follow a blank.  The second pass sees the text the first one leaves. -/

section

/-! The characters may carry positions or other things along: `char` finds the character. -/

variable {α : Type} (char : α → Char)

def afterCloser : List α → Option (List α)
  | [] => none
  | [_] => none
  | a :: b :: cs => if char a == '*' && char b == '/' then some cs else afterCloser (b :: cs)

/-- A closed block comment at the front: it is replaced by nothing. -/
def blockAt : List α → Option (Found α)
  | a :: b :: cs =>
    if char a == '/' && char b == '*' then
      (afterCloser char cs).map fun rest => { put := [], more := cs.length + 1 - rest.length }
    else none
  | _ => none

def dropBlocks (cs : List α) : List α := replaceAll (blockAt char) cs

/-- `free` says that a line comment may begin here, `inside` that one has begun. -/
def dropLineComments : (free inside : Bool) → List α → List α
  | _, _, [] => []
  | free, inside, c :: cs =>
    if char c == '\n' then c :: dropLineComments true false cs
    else if inside then dropLineComments false true cs
    else if free && char c == '/' && cs.head?.map char == some '/' then
      dropLineComments false true cs
    else c :: dropLineComments (isBlank (char c)) false cs

/-- The text without its comments.  An unclosed block comment stays. -/
def strip (cs : List α) : List α := dropLineComments char true false (dropBlocks char cs)

end

def stripComments (ps : List Placed) : List Placed := strip Prod.fst ps

/-! ## Lines -/

def splitLines (stop : Nat) : List Placed → List Line
  | [] => [{ text := [], offset := stop }]
  | (c, i) :: ps =>
    if c == '\n' then { text := [], offset := i } :: splitLines stop ps
    else
      match splitLines stop ps with
      | [] => [{ text := [c], offset := i }]
      | line :: lines => { text := c :: line.text, offset := i } :: lines

def prepare (strip : Bool) (source : List Char) : List Line :=
  let placed := place source
  splitLines source.length (if strip then stripComments placed else placed)

end Offside
