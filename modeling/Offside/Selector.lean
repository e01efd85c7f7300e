import Offside.Text.Search
import Offside.Text.TopLevel

/-!
# Selectors

A rule's selector is a list with top-level commas between its parts.  Two things
happen to it on the way out: the alias `:hocus` is spelled out, and a selector
inside another rule gets the parent reference `&` on every part that has none, as
CSS nesting asks.
-/
namespace Offside.Selector

/-! ## Aliases -/

def aliasName : List Char := ":hocus".toList

def aliasMeaning : List Char := ":is(:hover, :focus-within)".toList

def aliasAt (cs : List Char) : Option (Found Char) :=
  if aliasName.isPrefixOf cs && !(cs.drop aliasName.length).head?.any isNameChar then
    some { put := aliasMeaning, more := aliasName.length - 1 }
  else none

def expand (selector : List Char) : List Char := replaceAll aliasAt selector

/-! ## Nesting -/

/-- One part of a nested selector, given its parent reference.  A part that begins with a pseudo
class or an attribute is about the parent itself, any other about what is inside it. -/
def nestPart (part : List Char) : List Char :=
  let part := expand (trim part)
  if part.contains '&' then part
  else
    match part with
    | [] => []
    | '@' :: _ => part
    | ':' :: _ => '&' :: part
    | '[' :: _ => '&' :: part
    | _ => '&' :: ' ' :: part

def separator (compact : Bool) : List Char := if compact then [','] else [',', ' ']

/-- The selector as it is written out.  At the top nothing is put in front of it, and only
compact output touches the space around its commas. -/
def normalise (nested compact : Bool) (selector : List Char) : List Char :=
  let expanded := expand (trim selector)
  let parts := splitTopLevel ',' expanded
  if nested then (separator compact).intercalate (parts.map nestPart)
  else if compact && parts.length > 1 then (separator compact).intercalate (parts.map trim)
  else expanded

/-! ## Hovering -/

def hoverName : List Char := ":hover".toList

def hasHover (selector : List Char) : Bool := occurs hoverName selector

end Offside.Selector
