import Offside.Text.Search
import Offside.Text.TopLevel

/-!
# Comments

A statement line may end in a comment: `// …` up to the end of the line, or
`/* … */`.  `Comment.extract` takes the line apart and `Comment.render` writes
the comment back as a CSS comment.  A block comment keeps its raw text, so its
decoration survives; a line comment has no CSS form and is written anew from its
trimmed text.
-/
namespace Offside

inductive CommentKind
  | line
  | block
deriving DecidableEq, Repr

structure Comment where
  kind : CommentKind
  /-- The body, trimmed and without its markers. -/
  text : List Char
  /-- The comment as written, trimmed, markers included. -/
  raw : List Char
deriving DecidableEq, Repr

namespace Comment

def opener : List Char := ['/', '*']

def closer : List Char := ['*', '/']

def startIn : List (Char × Bool) → Option Nat
  | [] => none
  | (c, top) :: ms =>
    let next := ms.head?.map Prod.fst
    if top && c == '/' && (next == some '/' || next == some '*') then some 0
    else (startIn ms).map (· + 1)

/-- The position of the first comment marker outside quotes.  Brackets do not hide
a marker, and a backslash keeps the quote after it from counting. -/
def start? (content : List Char) : Option Nat := startIn (marked .comments content)

def ofTail (tail : List Char) : Comment :=
  if tail[1]? == some '/' then
    let raw := trim tail
    { kind := .line, text := trim (raw.drop 2), raw := raw }
  else
    let body := tail.drop 2
    match indexOf? closer body with
    | some stop => { kind := .block, text := trim (body.take stop), raw := trim (tail.take (stop + 4)) }
    | none => { kind := .block, text := trim body, raw := trim tail }

/-- A line taken apart into its statement and its comment.  What follows the end of
a block comment on the same line is dropped. -/
def extract (content : List Char) : List Char × Option Comment :=
  match start? content with
  | none => (trim content, none)
  | some start => (trimRight (content.take start), some (ofTail (content.drop start)))

/-- The comment in CSS.  An unclosed block is closed. -/
def render (c : Comment) : List Char :=
  let raw := trim c.raw
  if c.kind == .block && opener.isPrefixOf raw then
    if closer.isSuffixOf raw then raw else raw ++ [' ', '*', '/']
  else
    match trim c.text with
    | [] => opener ++ [' '] ++ closer
    | text => opener ++ [' '] ++ text ++ [' '] ++ closer

end Comment

end Offside
