import Offside.Number.Shortest

/-!
# Numbers as text

Doubles are written with their shortest digits: positionally while the first digit
stands between the fourth place after the point and the sixteenth before it, else
with an exponent of at least two digits.  A whole number keeps `.0`.  Reading takes
the same forms back, and rounds to the nearest double.
-/
namespace Offside.Number

/-! ## Writing -/

/-- The places of the first digit for which a number is written positionally. -/
def positional (place : Int) : Bool := -4 ≤ place && place < 16

def digitsOf (d : Decimal) : List Char × Int :=
  let all := Nat.toDigits 10 d.digits
  (all.reverse.dropWhile (· == '0') |>.reverse, d.exponent + all.length - 1)

/-- A point after the first `n` digits, with zeros where digits are missing. -/
def withPoint (digits : List Char) (n : Nat) : List Char :=
  let whole := digits.take n ++ List.replicate (n - digits.length) '0'
  let part := digits.drop n
  whole ++ ['.'] ++ (if part.isEmpty then ['0'] else part)

def exponentText (place : Int) : List Char :=
  let size := Nat.toDigits 10 place.natAbs
  [if place < 0 then '-' else '+'] ++ (if size.length < 2 then '0' :: size else size)

def decimalText (d : Decimal) : List Char :=
  let (digits, place) := digitsOf d
  if positional place then
    if place < 0 then
      ['0', '.'] ++ List.replicate (-place - 1).toNat '0' ++ digits
    else withPoint digits (place.toNat + 1)
  else
    digits.take 1 ++ (if digits.length > 1 then '.' :: digits.drop 1 else []) ++ ['e'] ++ exponentText place

def signed (negative : Bool) (cs : List Char) : List Char := if negative then '-' :: cs else cs

def write (x : Float) : List Char :=
  match Parts.of x with
  | .nan => "nan".toList
  | .infinite negative => signed negative "inf".toList
  | .finite negative mantissa exponent =>
    signed negative (if mantissa = 0 then "0.0".toList else decimalText (shortest mantissa exponent))

/-! ## Reading -/

def digitsValue (cs : List Char) : Nat := cs.foldl (fun n c => n * 10 + (c.toNat - '0'.toNat)) 0

structure Literal where
  whole : List Char
  part : List Char
  exponent : Int
deriving DecidableEq, Repr

/-- No double is larger than the power of ten of this exponent, nor its inverse distinct from zero. -/
def exponentLimit : Int := 400

def Literal.value (l : Literal) : Float :=
  let digits := digitsValue (l.whole ++ l.part)
  let exponent := l.exponent - l.part.length
  if digits = 0 then 0
  else if exponent > exponentLimit then Float.ofScientific 1 false 400
  else if exponent + (l.whole.length + l.part.length) < -exponentLimit then 0
  else Float.ofScientific digits (exponent < 0) exponent.natAbs

def splitSign : List Char → Bool × List Char
  | '-' :: cs => (true, cs)
  | '+' :: cs => (false, cs)
  | cs => (false, cs)

def allDigits (cs : List Char) : Bool := !cs.isEmpty && cs.all Char.isDigit

def readExponent? (cs : List Char) : Option Int :=
  let (negative, digits) := splitSign cs
  if allDigits digits then some (if negative then -(digitsValue digits : Int) else digitsValue digits)
  else none

def readLiteral? (cs : List Char) : Option Literal :=
  let whole := cs.takeWhile Char.isDigit
  let rest := cs.dropWhile Char.isDigit
  let (part, rest) :=
    match rest with
    | '.' :: tail => (tail.takeWhile Char.isDigit, tail.dropWhile Char.isDigit)
    | _ => ([], rest)
  if whole.isEmpty && part.isEmpty then none
  else
    match rest with
    | [] => some { whole := whole, part := part, exponent := 0 }
    | 'e' :: tail => (readExponent? tail).map fun e => { whole := whole, part := part, exponent := e }
    | 'E' :: tail => (readExponent? tail).map fun e => { whole := whole, part := part, exponent := e }
    | _ => none

def read? (cs : List Char) : Option Float :=
  let (negative, body) := splitSign cs
  let sign (x : Float) : Float := if negative then -x else x
  if body == "nan".toList then some (0.0 / 0.0)
  else if body == "inf".toList then some (sign (1.0 / 0.0))
  else (readLiteral? body).map fun l => sign l.value

/-- The double nearest to a whole number, unless that is out of range. -/
def ofNat? (n : Nat) : Option Float :=
  let x := Float.ofScientific n false 0
  if x.isInf then none else some x

end Offside.Number
