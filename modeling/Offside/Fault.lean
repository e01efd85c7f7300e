import Offside.Text.CharClass

/-!
# Faults

A fault is a cause and the position in the source where it was met.  The wording
and the code of each cause are here and nowhere else.  `Position` says where an
index lies: its line, its column and its distance in bytes.
-/
namespace Offside

inductive Cause
  /-- A leading run of blanks has both tabs and spaces, or not the ones used before. -/
  | mixedIndentation
  /-- An indent is no multiple of the step. -/
  | offStep
  /-- An indent is deeper than its parent by something else than one step. -/
  | badJump
  /-- An indented line has nothing above it that may own it. -/
  | unexpectedIndent
  /-- An indent returns to no open block. -/
  | unbalancedIndent
  /-- A multiple of a step of width zero was asked for. -/
  | zeroStep
  | malformedVariable
  | emptyVariableName
  | emptyAtRuleName
  | emptyProperty
  | emptyValue
deriving DecidableEq, Repr

namespace Cause

def code : Cause → String
  | mixedIndentation => "MixedIndentation"
  | offStep => "InvalidIndentStep"
  | badJump => "InvalidIndentStep"
  | unexpectedIndent => "UnexpectedIndent"
  | unbalancedIndent => "UnbalancedIndent"
  | zeroStep => "ZeroStep"
  | malformedVariable => "MalformedVariable"
  | emptyVariableName => "EmptyName"
  | emptyAtRuleName => "EmptyName"
  | emptyProperty => "EmptyProperty"
  | emptyValue => "EmptyValue"

def message : Cause → String
  | mixedIndentation => "Indentation mixes tabs and spaces"
  | offStep => "Indentation is not a multiple of the base indent"
  | badJump => "Indentation jump must increase by one level"
  | unexpectedIndent => "Unexpected indentation"
  | unbalancedIndent => "Indented block not properly closed"
  | zeroStep => "integer modulo by zero"
  | malformedVariable => "Expected \":\" after variable name"
  | emptyVariableName => "Variable name cannot be empty"
  | emptyAtRuleName => "At-rule name cannot be empty"
  | emptyProperty => "Declaration missing property name"
  | emptyValue => "Declaration missing value"

end Cause

structure Fault where
  cause : Cause
  index : Nat
deriving DecidableEq, Repr

def withIndex (message : String) (index : Int) : String :=
  message ++ " (at " ++ toString index ++ ")"

def Fault.text (f : Fault) : String := withIndex f.cause.message f.index

/-! ## Positions -/

/-- A place in a source: line and column count from 1, the offset from 0. -/
structure Position where
  line : Nat
  column : Nat
  byteOffset : Nat
deriving DecidableEq, Repr

namespace Position

def clamp (source : List Char) (index : Int) : Nat := min index.toNat source.length

/-- The last line break before an index, searched for from there on backwards. -/
def lastBreak? (source : List Char) (stop : Nat) : Option Nat :=
  ((source.take stop).reverse.findIdx? (· == '\n')).map (stop - 1 - ·)

def lineAndColumn (source : List Char) (index : Int) : Nat × Nat :=
  let place := clamp source index
  let lineStart := ((lastBreak? source place).map (· + 1)).getD 0
  ((source.take place).count '\n' + 1, place - lineStart + 1)

/-- The bytes before an index; there are none before a negative one. -/
def bytesBefore (source : List Char) (index : Int) : Nat := utf8Length (source.take index.toNat)

def locate (source : List Char) (index : Int) : Position :=
  let (line, column) := lineAndColumn source index
  { line := line, column := column, byteOffset := bytesBefore source index }

end Position

def Fault.position (f : Fault) (source : List Char) : Position := Position.locate source f.index

end Offside
