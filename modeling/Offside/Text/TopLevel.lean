import Offside.Text.CharClass

/-!
# Top-level characters

A character is at top level when it stands outside quotes and, where the caller
asks for it, outside round and square brackets.  Quotes and the brackets
themselves never are.  Everything is derived from one list of marks, one mark a
character (`marks`): the positions, the search for a delimiter and the split at
one.  A stray closing bracket counts for nothing: the depth stops at zero.
-/
namespace Offside

structure ScanMode where
  /-- Brackets hide what they enclose. -/
  brackets : Bool
  /-- A quote right after a backslash neither opens nor closes. -/
  escapes : Bool
deriving DecidableEq, Repr

def ScanMode.delimiters : ScanMode := { brackets := true, escapes := false }

def ScanMode.comments : ScanMode := { brackets := false, escapes := true }

structure Nesting where
  quote : Option Char
  round : Nat
  square : Nat
deriving DecidableEq, Repr

namespace Nesting

def outside : Nesting := { quote := none, round := 0, square := 0 }

def isQuote (c : Char) : Bool := c == '\'' || c == '"'

/-- Reads one character: what is open after it, and whether it is at top level. -/
def step (mode : ScanMode) (escaped : Bool) (n : Nesting) (c : Char) : Nesting × Bool :=
  match n.quote with
  | some q => if c == q && !escaped then ({ n with quote := none }, false) else (n, false)
  | none =>
    if isQuote c && !escaped then ({ n with quote := some c }, false)
    else if !mode.brackets then (n, true)
    else if c == '(' then ({ n with round := n.round + 1 }, false)
    else if c == '[' then ({ n with square := n.square + 1 }, false)
    else if c == ')' then ({ n with round := n.round - 1 }, false)
    else if c == ']' then ({ n with square := n.square - 1 }, false)
    else (n, n.round == 0 && n.square == 0)

end Nesting

def marksFrom (mode : ScanMode) : Nesting → Bool → List Char → List Bool
  | _, _, [] => []
  | n, escaped, c :: cs =>
    let (after, top) := n.step mode escaped c
    top :: marksFrom mode after (mode.escapes && c == '\\') cs

def marks (mode : ScanMode) (cs : List Char) : List Bool :=
  marksFrom mode Nesting.outside false cs

def marked (mode : ScanMode) (cs : List Char) : List (Char × Bool) := cs.zip (marks mode cs)

theorem marksFrom_length (mode : ScanMode) :
    ∀ (n : Nesting) (e : Bool) (cs : List Char), (marksFrom mode n e cs).length = cs.length
  | _, _, [] => rfl
  | n, e, c :: cs => by
    simp only [marksFrom, List.length_cons]
    rw [marksFrom_length mode _ _ cs]

@[simp] theorem marks_length (mode : ScanMode) (cs : List Char) :
    (marks mode cs).length = cs.length :=
  marksFrom_length mode _ _ cs

@[simp] theorem marked_map_fst (mode : ScanMode) (cs : List Char) :
    (marked mode cs).map Prod.fst = cs := by
  simp [marked, List.map_fst_zip]

/-! ## Positions, search and split -/

def positionsFrom : Nat → List Bool → List Nat
  | _, [] => []
  | i, true :: ms => i :: positionsFrom (i + 1) ms
  | i, false :: ms => positionsFrom (i + 1) ms

def topLevelAt (mode : ScanMode) (cs : List Char) : List Nat := positionsFrom 0 (marks mode cs)

def isCut (separator : Char) (m : Char × Bool) : Bool := m.2 && m.1 == separator

def findTopLevel? (target : Char) (cs : List Char) : Option Nat :=
  (marked .delimiters cs).findIdx? (isCut target)

/-- The part before the first cut, and the parts after it. -/
def cutParts (separator : Char) : List (Char × Bool) → List Char × List (List Char)
  | [] => ([], [])
  | m :: ms =>
    let (first, others) := cutParts separator ms
    if isCut separator m then ([], first :: others) else (m.1 :: first, others)

def dropBlankLast : List (List Char) → List (List Char)
  | [] => []
  | [part] => if allBlank part then [] else [part]
  | part :: next :: parts => part :: dropBlankLast (next :: parts)

/-- Splits at every top-level separator.  Parts are not trimmed; a last part that
is blank is dropped. -/
def splitTopLevel (separator : Char) (cs : List Char) : List (List Char) :=
  let (first, others) := cutParts separator (marked .delimiters cs)
  dropBlankLast (first :: others)

end Offside
