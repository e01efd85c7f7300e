import Offside.Comment
import Offside.Fault

/-!
# Statements

One logical line says one thing.  A leaf stands alone: the definition of a
variable, a declaration, a remark.  A heading may own the lines nested under it:
a rule or an at-rule.  `Statement.read` tells which of them a line is.
-/
namespace Offside

inductive Leaf
  /-- `$name: value`, followed by `!const` for a constant. -/
  | define (name value : List Char) (constant : Bool) (comment : Option Comment)
  /-- `property: value`. -/
  | declare (property value : List Char) (comment : Option Comment)
  /-- A comment on a line of its own. -/
  | remark (comment : Comment)
deriving DecidableEq, Repr

inductive Heading
  /-- A selector. -/
  | rule (selector : List Char) (comment : Option Comment)
  /-- `@name params`. -/
  | atRule (name params : List Char) (comment : Option Comment)
deriving DecidableEq, Repr

inductive Statement
  | leaf (leaf : Leaf)
  | heading (heading : Heading)
deriving DecidableEq, Repr

namespace Statement

def isHeading : Statement → Bool
  | leaf _ => false
  | heading _ => true

def constMark : List Char := "!const".toList

/-- A value and whether the mark of a constant ends it; the mark is taken off. -/
def splitConst (value : List Char) : List Char × Bool :=
  if constMark.isSuffixOf value then (trim (value.take (value.length - constMark.length)), true)
  else (value, false)

/-- Reads `$name: value`.  The first colon of all divides it. -/
def readDefine (main : List Char) (comment : Option Comment) : Except Cause Statement :=
  match main.findIdx? (· == ':') with
  | none => .error .malformedVariable
  | some colon =>
    match trim ((main.take colon).drop 1) with
    | [] => .error .emptyVariableName
    | name =>
      let (value, constant) := splitConst (trim (main.drop (colon + 1)))
      .ok (.leaf (.define name value constant comment))

def readAtRule (main : List Char) (comment : Option Comment) : Except Cause Statement :=
  let body := trim (main.drop 1)
  match body.takeWhile isNameChar with
  | [] => .error .emptyAtRuleName
  | name => .ok (.heading (.atRule name (trim (body.dropWhile isNameChar)) comment))

/-- Reads a declaration or a selector.  A declaration has a top-level colon with a
space or a tab right after it. -/
def readPlain (main : List Char) (comment : Option Comment) : Except Cause Statement :=
  match findTopLevel? ':' main with
  | none => .ok (.heading (.rule main comment))
  | some colon =>
    let rest := main.drop (colon + 1)
    if rest.head? == some ' ' || rest.head? == some '\t' then
      match trim (main.take colon), trim rest with
      | [], _ => .error .emptyProperty
      | _, [] => .error .emptyValue
      | property, value => .ok (.leaf (.declare property value comment))
    else .ok (.heading (.rule main comment))

def readMain (main : List Char) (comment : Option Comment) : Except Cause (Option Statement) :=
  match main with
  | [] => .ok (comment.map fun c => .leaf (.remark c))
  | '$' :: _ => (readDefine main comment).map some
  | '@' :: _ => (readAtRule main comment).map some
  | _ => (readPlain main comment).map some

/-- Reads one logical line; `none` if it says nothing.  A compact source has no
comments left to take off. -/
def read (compact : Bool) (content : List Char) : Except Cause (Option Statement) :=
  if compact then readMain (trim content) none
  else
    let (main, comment) := Comment.extract content
    readMain (trim main) comment

end Statement

end Offside
