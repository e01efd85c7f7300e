import Offside.Text.CharClass

/-!
# Squeezing blanks

Compact output keeps a blank only where it separates something.  Three small
steps do all the work: blanks after some characters go, blanks before some
characters go, and a run of two or more becomes one space.  What a value and what
an at-rule's parameters keep differs in one point: parameters keep the blank
after `)`, which `(a) and (b)` needs.
-/
namespace Offside.Squeeze

/-- Drops the blanks that follow a character of `p`; `after` says that one has just been read. -/
def dropAfterFrom (p : Char → Bool) : (after : Bool) → List Char → List Char
  | _, [] => []
  | after, c :: cs =>
    if after && isBlank c then dropAfterFrom p true cs else c :: dropAfterFrom p (p c) cs

def dropAfter (p : Char → Bool) (cs : List Char) : List Char := dropAfterFrom p false cs

def dropBefore (p : Char → Bool) : List Char → List Char
  | [] => []
  | c :: cs =>
    let rest := dropBefore p cs
    if isBlank c && rest.head?.any p then rest else c :: rest

/-- Makes one space of every run of two or more blanks; a single blank stays as it is. -/
def collapseRuns : List Char → List Char
  | [] => []
  | c :: cs =>
    match collapseRuns cs with
    | d :: ds => if isBlank c && isBlank d then ' ' :: ds else c :: d :: ds
    | [] => [c]

def value (cs : List Char) : List Char :=
  let cs := dropAfter (· == ',') cs
  let cs := dropAfter (· == '(') cs
  let cs := dropBefore (· == ')') cs
  let cs := dropAfter (· == ')') cs
  trim (collapseRuns cs)

def params (cs : List Char) : List Char :=
  let cs := dropAfter (· == ',') cs
  let cs := dropAfter (· == '(') cs
  let cs := dropBefore (· == ')') cs
  let cs := dropAfter (· == ':') (dropBefore (· == ':') cs)
  trim (collapseRuns cs)

end Offside.Squeeze
