import Offside.Text.Search

/-!
# Markup

Console text is written in a small markup: a tag in brackets changes the style of
what follows it, and a backslash before a tag makes it plain text.  Text from
outside goes through `escape` first, so that no part of it is taken for a tag;
`plain` reads markup back as text without styles.
-/
namespace Offside.Markup

/-! ## Tags -/

def opensTag (c : Char) : Bool := c.isLower || c == '#' || c == '/' || c == '@'

/-- How many characters there are up to the bracket that closes a tag.  A tag holds no opening
bracket. -/
def closing? : List Char → Option Nat
  | [] => none
  | c :: cs => if c == ']' then some 1 else if c == '[' then none else (closing? cs).map (· + 1)

def tagSize? : List Char → Option Nat
  | '[' :: c :: cs => if opensTag c then (closing? cs).map (· + 2) else none
  | _ => none

structure Guarded where
  slashes : Nat
  tag : List Char
deriving DecidableEq, Repr

def guarded? (cs : List Char) : Option Guarded :=
  let slashes := cs.takeWhile (· == '\\')
  let rest := cs.dropWhile (· == '\\')
  (tagSize? rest).map fun size => { slashes := slashes.length, tag := rest.take size }

def Guarded.size (g : Guarded) : Nat := g.slashes + g.tag.length

/-! ## Escaping -/

/-- A tag is guarded by one backslash more than twice those before it. -/
def guardRule (cs : List Char) : Option (Found Char) :=
  (guarded? cs).map fun g =>
    { put := List.replicate (2 * g.slashes + 1) '\\' ++ g.tag, more := g.size - 1 }

def endsInSlash (cs : List Char) : Bool :=
  match cs.reverse with
  | '\\' :: '\\' :: _ => false
  | '\\' :: _ => true
  | _ => false

/-- Text as markup that shows it.  A last backslash is doubled, because a tag may follow. -/
def escape (cs : List Char) : List Char :=
  let guarded := replaceAll guardRule cs
  if endsInSlash guarded then guarded ++ ['\\'] else guarded

def safe (s : String) : String := String.ofList (escape s.toList)

/-! ## Showing -/

/-- Of the backslashes before a tag every second one is shown; an odd one shows the tag. -/
def showRule (cs : List Char) : Option (Found Char) :=
  (guarded? cs).map fun g =>
    { put := List.replicate (g.slashes / 2) '\\' ++ (if g.slashes % 2 = 1 then g.tag else [])
      more := g.size - 1 }

def plain (s : String) : String := String.ofList (replaceAll showRule s.toList)

end Offside.Markup
