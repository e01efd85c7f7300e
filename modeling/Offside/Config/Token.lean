import Offside.Config.Word

/-!
# Tokens of a project file

A project file is a row of tokens: texts, marks, and the beginnings and ends of lists and
mappings.  Outside brackets these follow from the indentation: a list or mapping begins
where its first entry stands deeper than what is open, and ends before the first line that
stands less deep.

That a text is a key shows only at the colon behind it.  So the scanner keeps the places
where a key may have begun, and at a colon puts the tokens that announce the key before it.
A key stands on one line with its colon and is no longer than `keyLimit`.  A token leaves
the queue only when it can no longer turn out to be a key.
-/
namespace Offside.Config

inductive Tag
  | null
  | bool
  | int
  | float
  | text
  | list
  | map
deriving DecidableEq, Repr

inductive Token
  /-- A directive; one about the format says its version. -/
  | directive (version : Option Nat)
  | documentStart
  | documentEnd
  /-- The end of the file. -/
  | fileEnd
  /-- A list begins that indentation holds together. -/
  | listStart
  | mapStart
  | blockEnd
  | openList
  | openMap
  | closeList
  | closeMap
  | item
  | comma
  | key
  | value
  | alias (name : List Char)
  | anchor (name : List Char)
  /-- A declared kind; nothing if the kind is left to the spelling. -/
  | tag (kind : Option Tag)
  | scalar (text : List Char) (plain : Bool)
deriving DecidableEq, Repr

inductive Bracket
  | list
  | map
deriving DecidableEq, Repr

structure KeyPlace where
  /-- The number of its first token. -/
  token : Nat
  /-- The line can begin with nothing but a key. -/
  required : Bool
  index : Nat
  line : Nat
  column : Nat
deriving DecidableEq, Repr

/-- How far a key's colon may stand from its beginning. -/
def keyLimit : Nat := 1024

structure Scanner where
  cursor : Cursor
  /-- More than the length of the file: no reading takes so many steps. -/
  fuel : Nat
  /-- The tokens read and not yet taken. -/
  queue : List Token := []
  /-- How many tokens have been taken. -/
  taken : Nat := 0
  ended : Bool := false
  /-- The open brackets, innermost first. -/
  brackets : List Bracket := []
  /-- The column of the innermost list or mapping outside brackets, and of those around it. -/
  indent : Int := -1
  indents : List Int := []
  /-- Whether a key may begin here. -/
  keyAllowed : Bool := true
  /-- The places where a key may have begun, at most one for each depth of brackets. -/
  keys : List (Nat × KeyPlace) := []
deriving DecidableEq, Repr

namespace Scanner

def inBrackets (s : Scanner) : Bool := !s.brackets.isEmpty

def emit (s : Scanner) (t : Token) : Scanner := { s with queue := s.queue ++ [t] }

def skip (s : Scanner) (n : Nat) : Scanner := { s with cursor := s.cursor.skip n }

/-! ## Places of keys -/

def depth (s : Scanner) : Nat := s.brackets.length

def without (s : Scanner) (depth : Nat) : Scanner := { s with keys := s.keys.filter (·.1 != depth) }

def dropKey (s : Scanner) : Except Flaw Scanner :=
  match s.keys.lookup s.depth with
  | none => .ok s
  | some k => if k.required then .error .malformed else .ok (s.without s.depth)

def saveKey (s : Scanner) : Except Flaw Scanner :=
  if s.keyAllowed then do
    let place : KeyPlace :=
      { token := s.taken + s.queue.length
        required := !s.inBrackets && s.indent == s.cursor.column
        index := s.cursor.index, line := s.cursor.line, column := s.cursor.column }
    let s ← s.dropKey
    return { s with keys := (s.depth, place) :: s.keys }
  else .ok s

def isLate (s : Scanner) (k : KeyPlace) : Bool :=
  k.line != s.cursor.line || s.cursor.index - k.index > keyLimit

def dropLate (s : Scanner) : Except Flaw Scanner :=
  if s.keys.any fun k => s.isLate k.2 && k.2.required then .error .malformed
  else .ok { s with keys := s.keys.filter fun k => !s.isLate k.2 }

/-! ## Indentation -/

def deeper (column : Int) : Int → List Int → Nat
  | indent, outer :: indents => if indent > column then deeper column outer indents + 1 else 0
  | _, [] => 0

def unwind (s : Scanner) (column : Int) : Scanner :=
  if s.inBrackets then s
  else
    let n := deeper column s.indent s.indents
    { s with
      indent := (s.indent :: s.indents).getD n (-1)
      indents := s.indents.drop n
      queue := s.queue ++ List.replicate n .blockEnd }

/-- Begins a list or mapping at a column, if it stands deeper than what is open.  The token comes
after the first `before` tokens of the queue. -/
def beginAt (s : Scanner) (column : Nat) (start : Token) (before : Nat) : Scanner :=
  if s.indent < column then
    { s with
      indent := column
      indents := s.indent :: s.indents
      queue := s.queue.take before ++ start :: s.queue.drop before }
  else s

/-! ## Between tokens -/

/-- Passes over spaces, comments and breaks.  Outside brackets a key may begin on a new line. -/
def toToken : (fuel : Nat) → Scanner → Scanner
  | 0, s => s
  | fuel + 1, s =>
    let c := s.cursor.skipSpaces
    let c := if c.head? == some '#' then c.skip (untilBreak c).length else c
    match c.lineBreak? with
    | none => { s with cursor := c }
    | some (_, c) => toToken fuel { s with cursor := c, keyAllowed := s.keyAllowed || !s.inBrackets }

def skipOrderMark (s : Scanner) : Scanner :=
  if s.cursor.index = 0 && s.cursor.head? == some orderMark then s.skip 1 else s

/-! ## Marks -/

def readDocumentMark (s : Scanner) (t : Token) : Except Flaw Scanner := do
  let s ← (s.unwind (-1)).dropKey
  return ({ s with keyAllowed := false }.emit t).skip 3

def readFileEnd (s : Scanner) : Except Flaw Scanner := do
  let s ← (s.unwind (-1)).dropKey
  return { s with keyAllowed := false, keys := [], ended := true }.emit .fileEnd

def readOpen (s : Scanner) (b : Bracket) (t : Token) : Except Flaw Scanner := do
  let s ← s.saveKey
  return ({ s with brackets := b :: s.brackets, keyAllowed := true }.emit t).skip 1

def readClose (s : Scanner) (t : Token) : Except Flaw Scanner := do
  let s ← s.dropKey
  return ({ s with brackets := s.brackets.tail, keyAllowed := false }.emit t).skip 1

def readComma (s : Scanner) : Except Flaw Scanner := do
  let s ← s.dropKey
  return ({ s with keyAllowed := true }.emit .comma).skip 1

/-- Outside brackets an entry begins only where a key could. -/
def beginEntry (s : Scanner) (start : Token) : Except Flaw Scanner :=
  if s.inBrackets then .ok s
  else if s.keyAllowed then .ok (s.beginAt s.cursor.column start s.queue.length)
  else .error .malformed

def readItem (s : Scanner) : Except Flaw Scanner := do
  let s ← s.beginEntry .listStart
  let s ← s.dropKey
  return ({ s with keyAllowed := true }.emit .item).skip 1

def readKey (s : Scanner) : Except Flaw Scanner := do
  let s ← s.beginEntry .mapStart
  let s ← s.dropKey
  return ({ s with keyAllowed := !s.inBrackets }.emit .key).skip 1

/-- A colon.  If a key may have begun at this depth, it did. -/
def readValue (s : Scanner) : Except Flaw Scanner :=
  match s.keys.lookup s.depth with
  | some k =>
    let before := k.token - s.taken
    let s := { s.without s.depth with queue := s.queue.take before ++ Token.key :: s.queue.drop before }
    let s := if s.inBrackets then s else s.beginAt k.column .mapStart before
    .ok (({ s with keyAllowed := false }.emit .value).skip 1)
  | none => do
    let s ← s.beginEntry .mapStart
    return ({ s with keyAllowed := !s.inBrackets }.emit .value).skip 1

/-! ## Names and kinds -/

def isNameChar (c : Char) : Bool :=
  let n := c.toNat
  !isBracketMark c && c != orderMark &&
    ((0x21 ≤ n && n ≤ 0x7E) || (0xA0 ≤ n && n ≤ 0xFFFD) || 0x10000 ≤ n)

def readName (s : Scanner) (t : List Char → Token) : Except Flaw Scanner := do
  let s ← s.saveKey
  let name := (s.cursor.rest.drop 1).takeWhile isNameChar
  let next := (s.cursor.rest.drop (name.length + 1)).head?
  if name.isEmpty || !next.all (fun c => isGap c || isBreak c || isBracketMark c) then .error .malformed
  else return ({ s with keyAllowed := false }.emit (t name)).skip (name.length + 1)

def tagNames : List (String × Tag) :=
  [("null", .null), ("bool", .bool), ("int", .int), ("float", .float), ("str", .text), ("seq", .list), ("map", .map)]

def tagOf? (word : List Char) : Option (Option Tag) :=
  if word == ['!'] then some none
  else
    (tagNames.find? fun p =>
      word == ("!!" ++ p.1).toList || word == ("!<tag:yaml.org,2002:" ++ p.1 ++ ">").toList).map fun p => some p.2

def readTag (s : Scanner) : Except Flaw Scanner := do
  let s ← s.saveKey
  let word := s.cursor.rest.takeWhile fun c => c != ' ' && !isBreak c
  match tagOf? word with
  | none => .error .malformed
  | some kind => return ({ s with keyAllowed := false }.emit (.tag kind)).skip word.length

/-! ## Directives -/

def isDirectiveChar (c : Char) : Bool := c.isAlphanum || c == '-' || c == '_' || c == ':' || c == '.'

def versionIn? (cs : List Char) : Option (Nat × List Char) :=
  let cs := cs.dropWhile (· == ' ')
  let major := cs.takeWhile Char.isDigit
  match cs.drop major.length with
  | '.' :: cs =>
    let minor := cs.takeWhile Char.isDigit
    if major.isEmpty || minor.isEmpty then none else some (digitsNumber 10 major, cs.drop minor.length)
  | _ => none

def isBareLine (cs : List Char) : Bool :=
  cs.isEmpty || (cs.head? == some ' ' && (cs.dropWhile (· == ' ')).head?.all (· == '#'))

def readDirective (s : Scanner) : Except Flaw Scanner := do
  let s ← (s.unwind (-1)).dropKey
  let line := untilBreak s.cursor
  let name := (line.drop 1).takeWhile isDirectiveChar
  let rest := line.drop (name.length + 1)
  let done (version : Option Nat) : Scanner :=
    ({ s with keyAllowed := false }.emit (.directive version)).skip line.length
  if name.isEmpty || !rest.head?.all (· == ' ') then .error .malformed
  else if name == "YAML".toList then
    match versionIn? rest with
    | none => .error .malformed
    | some (major, rest) => if isBareLine rest then .ok (done (some major)) else .error .malformed
  else if name == "TAG".toList then .error .malformed
  else .ok (done none)

/-! ## Texts -/

def readQuotes (s : Scanner) (quote : Char) : Except Flaw Scanner := do
  let s ← s.saveKey
  let ((text, c) : List Char × Cursor) ← readQuoted quote s.fuel s.cursor.step
  return { s with cursor := c, keyAllowed := false }.emit (.scalar text false)

def readBlock (s : Scanner) (folded : Bool) : Except Flaw Scanner := do
  let s ← s.dropKey
  let ((text, c) : List Char × Cursor) ← Config.readBlock folded (s.indent + 1).toNat s.fuel s.cursor.step
  return { s with cursor := c, keyAllowed := true }.emit (.scalar text false)

def readPlain (s : Scanner) : Except Flaw Scanner := do
  let s ← s.saveKey
  let p := Config.readPlain s.inBrackets (s.indent + 1) s.fuel s.cursor
  return { s with cursor := p.cursor, keyAllowed := p.crossed }.emit (.scalar p.text true)

/-! ## One token -/

def isReserved (c : Char) : Bool :=
  isGap c || isBreak c || isBracketMark c || c == '#' || c == '&' || c == '*' || c == '!' || c == '|' ||
    c == '>' || c == '\'' || c == '"' || c == '%' || c == '@' || c.toNat == 0x60

def beginsPlain (s : Scanner) (c : Char) : Bool :=
  let next := s.cursor.second?
  if c == '-' then !endsWord next
  else if c == ':' then (if s.inBrackets then !next.any isGap else !endsWord next)
  else if c == '?' then !s.inBrackets && !endsWord next
  else !isReserved c

/-- Whether a colon stands for itself.  In braces it does, also with a word right behind it, except
where a value has just begun. -/
def isColon (s : Scanner) : Bool :=
  endsWord s.cursor.second? || (s.brackets.head? == some .map && s.queue.getLast? != some .value)

def readAt (s : Scanner) (c : Char) : Except Flaw Scanner :=
  let atStart := s.cursor.column = 0
  if c == '%' && atStart then s.readDirective
  else if atStart && s.cursor.atMark '-' then s.readDocumentMark .documentStart
  else if atStart && s.cursor.atMark '.' then s.readDocumentMark .documentEnd
  else if c == '[' then s.readOpen .list .openList
  else if c == '\x7b' then s.readOpen .map .openMap
  else if c == ']' then s.readClose .closeList
  else if c == '\x7d' then s.readClose .closeMap
  else if c == ',' then s.readComma
  else if c == '-' && endsWord s.cursor.second? then s.readItem
  else if c == '?' && (s.inBrackets || endsWord s.cursor.second?) then s.readKey
  else if c == ':' && s.isColon then s.readValue
  else if c == '*' then s.readName .alias
  else if c == '&' then s.readName .anchor
  else if c == '!' then s.readTag
  else if c == '|' && !s.inBrackets then s.readBlock false
  else if c == '>' && !s.inBrackets then s.readBlock true
  else if c == '\'' || c == '"' then s.readQuotes c
  else if s.beginsPlain c then s.readPlain
  else .error .malformed

/-- Reads one token more, and those that announce or end what it belongs to. -/
def readMore (s : Scanner) : Except Flaw Scanner := do
  let s := toToken s.fuel s.skipOrderMark
  let s ← s.dropLate
  let s := s.unwind s.cursor.column
  match s.cursor.head? with
  | none => s.readFileEnd
  | some c => s.readAt c

def settle : (fuel : Nat) → Scanner → Except Flaw Scanner
  | 0, _ => .error .malformed
  | fuel + 1, s =>
    if s.ended then .ok s
    else if s.queue.isEmpty then s.readMore.bind (settle fuel)
    else do
      let s ← s.dropLate
      if s.keys.any fun k => k.2.token == s.taken then s.readMore.bind (settle fuel) else return s

def peek (s : Scanner) : Except Flaw (Token × Scanner) := do
  let s ← settle s.fuel s
  return (s.queue.headD .fileEnd, s)

def start (cs : List Char) : Scanner := { cursor := { rest := cs }, fuel := cs.length + 2 }

def drop (s : Scanner) : Scanner := { s with queue := s.queue.tail, taken := s.taken + 1 }

end Scanner

end Offside.Config
