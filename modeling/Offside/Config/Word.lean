import Offside.Config.Cursor
import Offside.Config.Scalar

/-!
# Texts in a project file

The three ways to write a text: plain words, quotes, and blocks of lines.  Where a text
goes on in a further line, the break between the lines counts as a space, and of several
breaks in a row one is dropped.
-/
namespace Offside.Config

def foldBreaks (first : Char) (more : List Char) : List Char :=
  if first != '\n' then first :: more else if more.isEmpty then [' '] else more

/-! ## Plain words -/

def isBracketMark (c : Char) : Bool :=
  c == ',' || c == '[' || c == ']' || c == '\x7b' || c == '\x7d'

/-- How many characters stand here up to what ends a word: a blank, a break, a colon at the end
of a word, and in brackets one of their marks. -/
def wordLength (inBrackets : Bool) : List Char → Nat
  | [] => 0
  | c :: cs =>
    let ends := if c == ':' then endsWord cs.head? else endsWord (some c) || (inBrackets && isBracketMark c)
    if ends then 0 else wordLength inBrackets cs + 1

structure Between where
  /-- What it counts for; nothing if the text ends here. -/
  text : List Char
  /-- It holds a break. -/
  crossed : Bool
  cursor : Cursor
deriving DecidableEq, Repr

/-- The breaks at the start of a line and the spaces around them; nothing if a document begins or
ends among them. -/
def plainBreaks : (fuel : Nat) → Cursor → Option (List Char) × Cursor
  | 0, c => (none, c)
  | fuel + 1, c =>
    if c.atDivider then (none, c)
    else
      match c.skipSpaces.lineBreak? with
      | none => (some [], c.skipSpaces)
      | some (b, d) =>
        let (bs, d) := plainBreaks fuel d
        (bs.map (b :: ·), d)

def between (fuel : Nat) (c : Cursor) : Between :=
  match c.skipSpaces.lineBreak? with
  | none => { text := c.rest.takeWhile (· == ' '), crossed := false, cursor := c.skipSpaces }
  | some (b, d) =>
    let (bs, d) := plainBreaks fuel d
    { text := (bs.map (foldBreaks b)).getD [], crossed := true, cursor := d }

/-- The words of a plain text behind what stands before them.  Outside brackets each line has to
be indented that far. -/
def readWords (inBrackets : Bool) (indent : Int) : (fuel : Nat) → Between → Between
  | 0, b => { b with text := [] }
  | fuel + 1, b =>
    let size := wordLength inBrackets b.cursor.rest
    if size = 0 || b.cursor.head? == some '#' then { b with text := [] }
    else
      let word := b.text ++ b.cursor.rest.take size
      let next := between (fuel + 1) (b.cursor.skip size)
      if next.text.isEmpty || next.cursor.head? == some '#' ||
          (!inBrackets && next.cursor.column < indent) then
        { next with text := word }
      else
        let more := readWords inBrackets indent fuel next
        { more with text := word ++ more.text }

def readPlain (inBrackets : Bool) (indent : Int) (fuel : Nat) (c : Cursor) : Between :=
  readWords inBrackets indent fuel { text := [], crossed := false, cursor := c }

/-! ## Quotes -/

def escapes : List (Char × Char) :=
  [('0', '\x00'), ('a', '\x07'), ('b', '\x08'), ('t', '\t'), ('\t', '\t'), ('n', '\n'), ('v', '\x0b'),
   ('f', '\x0c'), ('r', '\r'), ('e', '\x1b'), (' ', ' '), ('"', '"'), ('/', '/'), ('\\', '\\'),
   ('N', '\u0085'), ('_', '\u00a0'), ('L', '\u2028'), ('P', '\u2029')]

def escapeSize (c : Char) : Option Nat :=
  if c == 'x' then some 2 else if c == 'u' then some 4 else if c == 'U' then some 8 else none

def characterOf (n : Nat) : Except Flaw Char :=
  if n > 0x10FFFF then .error .characterRange
  else if n.isValidChar then .ok (Char.ofNat n)
  else .error .malformed

def readEscape : List Char → Except Flaw (Char × Nat)
  | [] => .error .malformed
  | c :: rest =>
    match escapes.lookup c with
    | some d => .ok (d, 1)
    | none =>
      match escapeSize c with
      | none => .error .malformed
      | some size =>
        let digits := rest.take size
        if digits.length = size && digits.all isHexDigit then
          (characterOf (digitsNumber 16 digits)).map fun d => (d, size + 1)
        else .error .malformed

/-- The breaks at the start of a line in quotes and the blanks around them.  No document begins or
ends there. -/
def quotedBreaks : (fuel : Nat) → Cursor → Read (List Char)
  | 0, _ => .error .malformed
  | fuel + 1, c =>
    if c.atDivider then .error .malformed
    else
      match (c.skipWhile isGap).lineBreak? with
      | none => .ok ([], c.skipWhile isGap)
      | some (b, d) => (quotedBreaks fuel d).map fun r => (b :: r.1, r.2)

/-- The piece of a text at a blank, a break, a doubled quote, an escape or any other character;
nothing at its end. -/
def quotedPiece (quote : Char) (fuel : Nat) (c : Cursor) : Except Flaw (Option (List Char × Cursor)) :=
  match c.rest with
  | [] => .error .malformed
  | ch :: rest =>
    if isGap ch || isBreak ch then
      match (c.skipWhile isGap).lineBreak? with
      | none => .ok (some (c.rest.takeWhile isGap, c.skipWhile isGap))
      | some (b, d) => (quotedBreaks fuel d).map fun r => some (foldBreaks b r.1, r.2)
    else if ch == quote then
      .ok (if quote == '\'' && rest.head? == some quote then some ([quote], c.skip 2) else none)
    else if ch == '\\' && quote == '"' then
      match c.step.lineBreak? with
      | some (_, d) => (quotedBreaks fuel d).map some
      | none => (readEscape rest).map fun e => some ([e.1], c.skip (e.2 + 1))
    else .ok (some ([ch], c.step))

def readQuoted (quote : Char) : (fuel : Nat) → Cursor → Read (List Char)
  | 0, _ => .error .malformed
  | fuel + 1, c =>
    match quotedPiece quote (fuel + 1) c with
    | .error flaw => .error flaw
    | .ok none => .ok ([], c.step)
    | .ok (some (piece, d)) => (readQuoted quote fuel d).map fun r => (piece ++ r.1, r.2)

/-! ## Blocks -/

inductive Chomp
  | clip
  | strip
  | keep
deriving DecidableEq, Repr

structure BlockHead where
  folded : Bool
  chomp : Chomp
  /-- How far the lines are indented, if that is said. -/
  increment : Option Nat
deriving DecidableEq, Repr

def chompOf? : Option Char → Option Chomp
  | some '+' => some .keep
  | some '-' => some .strip
  | _ => none

def digitOf? : Option Char → Option Nat
  | some c => if c.isDigit then some (digitValue c) else none
  | none => none

/-- The marks behind the character that begins a block: how it ends and how far it is indented, in
either order. -/
def blockMarks (c : Cursor) : (Chomp × Option Nat) × Cursor :=
  match chompOf? c.head? with
  | some chomp =>
    match digitOf? c.step.head? with
    | some n => ((chomp, some n), c.skip 2)
    | none => ((chomp, none), c.step)
  | none =>
    match digitOf? c.head? with
    | some n =>
      match chompOf? c.step.head? with
      | some chomp => ((chomp, some n), c.skip 2)
      | none => ((.clip, some n), c.step)
    | none => ((.clip, none), c)

def untilBreak (c : Cursor) : List Char := c.rest.takeWhile fun ch => !endsLine (some ch)

def someBreak (c : Cursor) : List Char × Cursor :=
  match c.lineBreak? with
  | some (b, d) => ([b], d)
  | none => ([], c)

def readBlockHead (folded : Bool) (c : Cursor) : Read BlockHead :=
  let ((chomp, increment), c) := blockMarks c
  let bare := c.skipSpaces
  let bare := if bare.head? == some '#' then bare.skip (untilBreak bare).length else bare
  if increment == some 0 || !(c.head?.all fun ch => ch == ' ' || isBreak ch) || !endsLine bare.head? then
    .error .malformed
  else .ok ({ folded := folded, chomp := chomp, increment := increment }, (someBreak bare).2)

structure BlockLead where
  breaks : List Char := []
  /-- How far the first of the empty lines goes. -/
  first : Option Nat := none
  /-- How far the spaces go at most. -/
  most : Nat := 0
deriving DecidableEq, Repr

def readBlockLead : (fuel : Nat) → BlockLead → Cursor → BlockLead × Cursor
  | 0, lead, c => (lead, c)
  | fuel + 1, lead, c =>
    let d := c.skipSpaces
    let lead := if c.head? == some ' ' then { lead with most := max lead.most d.column } else lead
    match d.lineBreak? with
    | none => (lead, d)
    | some (b, e) =>
      readBlockLead fuel
        { lead with breaks := lead.breaks ++ [b], first := some (lead.first.getD d.column) } e

def skipIndent (indent : Nat) (c : Cursor) : Cursor :=
  c.skip (min (c.rest.takeWhile (· == ' ')).length (indent - c.column))

def blockBreaks (indent : Nat) : (fuel : Nat) → Cursor → List Char × Cursor
  | 0, c => ([], c)
  | fuel + 1, c =>
    let c := skipIndent indent c
    match c.lineBreak? with
    | none => ([], c)
    | some (b, d) =>
      let (bs, d) := blockBreaks indent fuel d
      (b :: bs, d)

structure BlockLines where
  text : List Char
  /-- The break behind the last line. -/
  ending : List Char
  /-- The breaks behind that one. -/
  breaks : List Char
  cursor : Cursor
deriving DecidableEq, Repr

/-- Reads the lines of a block behind some empty ones.  A block that no indent sets apart ends also
where a document does. -/
def readBlockLines (folded setApart : Bool) (indent : Nat) :
    (fuel : Nat) → (breaks : List Char) → Cursor → BlockLines
  | 0, breaks, c => { text := [], ending := [], breaks := breaks, cursor := c }
  | fuel + 1, breaks, c =>
    if c.column = indent && !c.atEnd then
      let line := untilBreak c
      let (ending, d) := someBreak (c.skip line.length)
      let (bs, d) := blockBreaks indent (fuel + 1) d
      let own := breaks ++ line
      if d.column ≠ indent || d.atEnd || (!setApart && d.column = 0 && d.atDivider) then
        { text := own, ending := ending, breaks := bs, cursor := d }
      else
        let joined := folded && ending == ['\n'] && !c.head?.any isGap && !d.head?.any isGap
        let joint := if joined then (if bs.isEmpty then [' '] else []) else ending
        let more := readBlockLines folded setApart indent fuel bs d
        { more with text := own ++ joint ++ more.text }
    else { text := [], ending := [], breaks := breaks, cursor := c }

/-- A block behind the character that begins it.  Its lines stand at least at the given column. -/
def readBlock (folded : Bool) (column fuel : Nat) (c : Cursor) : Except Flaw (List Char × Cursor) := do
  let ((head, c) : BlockHead × Cursor) ← readBlockHead folded c
  let (indent, breaks, c) ←
    match head.increment with
    | some n =>
      let indent := max column 1 + n - 1
      let (breaks, c) := blockBreaks indent fuel c
      .ok (indent, breaks, c)
    | none =>
      let (lead, c) := readBlockLead fuel {} c
      if lead.first.any (fun n => 0 < n && n < lead.most) then .error .malformed
      else .ok (max column lead.most, lead.breaks, c)
  let setApart := column ≠ 0 || head.increment.isSome
  let lines := readBlockLines folded setApart indent fuel breaks c
  let ending :=
    match head.chomp with
    | .strip => []
    | .clip => lines.ending
    | .keep => lines.ending ++ lines.breaks
  return (lines.text ++ ending, lines.cursor)

end Offside.Config
