import Offside.Text.CharClass
import Offside.Text.Digit

/-!
# Whole numbers

A whole number given as a word: digits of any script, with single underscores
between them if they are grouped.  A sign may stand before them, and blanks around
the whole.
-/
namespace Offside.Number

def digitLimit : Nat := 4300

/-- The values of digits, between which single underscores may stand. -/
def readDigits? : List Char → Option (List Nat)
  | [] => none
  | [c] => (digitValue? c).map fun d => [d]
  | c :: '_' :: cs =>
    match digitValue? c with
    | none => none
    | some d => (readDigits? cs).map (d :: ·)
  | c :: cs =>
    match digitValue? c with
    | none => none
    | some d => (readDigits? cs).map (d :: ·)

def readNat? (cs : List Char) : Option Nat :=
  match readDigits? cs with
  | none => none
  | some ds => if ds.length ≤ digitLimit then some (ds.foldl (fun n d => n * 10 + d) 0) else none

def readWhole? (cs : List Char) : Option Int :=
  match trim cs with
  | '-' :: digits => (readNat? digits).map fun n => -(n : Int)
  | '+' :: digits => (readNat? digits).map Int.ofNat
  | digits => (readNat? digits).map Int.ofNat

end Offside.Number
