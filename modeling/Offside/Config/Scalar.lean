import Offside.Config.Value
import Offside.Text.CharClass

/-!
# Plain words

A word without quotes is null, a truth value, a number or a date if it is spelled
like one, and a text otherwise.  A word can be spelled like a number and still have
no value, if it holds only marks that group digits.
-/
namespace Offside.Config

/-- The outcome of a word that is spelled like a value of some kind; nothing for any other word. -/
abbrev Spelled (α : Type) := Option (Except Flaw α)

/-! ## Whole numbers -/

/-- The digits of a number; `_` may stand among them to group them. -/
def isGrouped (isDigit : Char → Bool) (cs : List Char) : Bool :=
  !cs.isEmpty && cs.all fun c => isDigit c || c == '_'

def digitValue (c : Char) : Nat :=
  if c.isDigit then c.toNat - '0'.toNat else c.toLower.toNat - 'a'.toNat + 10

def ungroup (cs : List Char) : List Char := cs.filter (· != '_')

def isHexDigit (c : Char) : Bool := c.isDigit || ('a' ≤ c.toLower && c.toLower ≤ 'f')

def digitsNumber (base : Nat) (digits : List Char) : Nat :=
  digits.foldl (fun n c => n * base + digitValue c) 0

def groupedValue (base : Nat) (cs : List Char) : Except Flaw Nat :=
  let digits := ungroup cs
  if digits.isEmpty then .error (.notWhole base [])
  else if base = 10 && digits.length > digitLimit then .error (.tooManyDigits digits.length)
  else .ok (digitsNumber base digits)

def splitBase : List Char → Nat × List Char
  | '0' :: 'b' :: cs => (2, cs)
  | '0' :: 'o' :: cs => (8, cs)
  | '0' :: 'x' :: cs => (16, cs)
  | cs => (10, cs)

def isDigitOf (base : Nat) (c : Char) : Bool := isHexDigit c && digitValue c < base

def nat? (cs : List Char) : Spelled Nat :=
  let (base, digits) := splitBase cs
  if isGrouped (isDigitOf base) digits then some (groupedValue base digits) else none

def int? (cs : List Char) : Spelled Int :=
  let (negative, body) := Number.splitSign cs
  if cs.head? == some '_' then none
  else (nat? body).map fun n => n.map fun n => if negative then -(n : Int) else n

/-! ## Decimals -/

def isExponentMark (c : Char) : Bool := c == 'e' || c == 'E'

/-- An exponent; behind digits that begin with a point it needs its sign. -/
def isExponent (signed : Bool) : List Char → Bool
  | [] => true
  | _ :: cs =>
    match cs with
    | '+' :: digits => Number.allDigits digits
    | '-' :: digits => Number.allDigits digits
    | digits => !signed && Number.allDigits digits

/-- Digits, perhaps with a point or an exponent, without a sign.  Group marks may stand among the digits,
but not first. -/
def decimal? (cs : List Char) : Spelled Float :=
  let digits := cs.takeWhile fun c => !isExponentMark c
  let exponent := cs.dropWhile fun c => !isExponentMark c
  let plain := ungroup digits ++ exponent.map Char.toLower
  if cs.head? == some '_' || !isExponent (cs.head? == some '.') exponent then none
  else
    match Number.readLiteral? plain with
    | some l => some (.ok l.value)
    | none =>
      if digits.length > 1 && ungroup digits == ['.'] && cs.head? == some '.' then some (.error (.notDecimal plain))
      else none

def float? (cs : List Char) : Spelled Float :=
  let (negative, body) := Number.splitSign cs
  let sign (x : Float) : Float := if negative then -x else x
  if [".inf".toList, ".Inf".toList, ".INF".toList].contains body then some (.ok (sign (1.0 / 0.0)))
  else if [".nan".toList, ".NaN".toList, ".NAN".toList].contains cs then some (.ok (0.0 / 0.0))
  else (decimal? body).map fun x => x.map sign

/-! ## Dates -/

def isLeap (year : Nat) : Bool := year % 4 = 0 && (year % 100 ≠ 0 || year % 400 = 0)

def daysIn (year month : Nat) : Nat :=
  if month = 2 then (if isLeap year then 29 else 28)
  else if [4, 6, 9, 11].contains month then 30
  else 31

def checkDay (year month day : Nat) : Except Flaw Unit :=
  if year = 0 then .error .yearRange
  else if month = 0 || month > 12 then .error .monthRange
  else if day = 0 || day > daysIn year month then .error .dayRange
  else .ok ()

def checkTime (hour minute second : Nat) : Except Flaw Unit :=
  if hour > 23 then .error .hourRange
  else if minute > 59 then .error .minuteRange
  else if second > 59 then .error .secondRange
  else .ok ()

def oneOrTwo? (cs : List Char) : Option (Nat × List Char) :=
  let digits := (cs.takeWhile Char.isDigit).take 2
  if digits.isEmpty then none else some (digitsNumber 10 digits, cs.drop digits.length)

def digits? (count : Nat) (cs : List Char) : Option (Nat × List Char) :=
  let digits := cs.take count
  if digits.length = count && digits.all Char.isDigit then some (digitsNumber 10 digits, cs.drop count)
  else none

def after? (c : Char) : List Char → Option (List Char)
  | d :: cs => if d == c then some cs else none
  | [] => none

def day? (cs : List Char) : Option (Except Flaw Unit) := do
  let (year, cs) ← digits? 4 cs
  let (month, cs) ← digits? 2 (← after? '-' cs)
  let (day, cs) ← digits? 2 (← after? '-' cs)
  if cs.isEmpty then some (checkDay year month day) else none

def dropFraction : List Char → List Char
  | '.' :: cs => cs.dropWhile Char.isDigit
  | cs => cs

def isZone (cs : List Char) : Bool :=
  match cs.dropWhile (· == ' ') with
  | [] => cs.isEmpty
  | ['Z'] => true
  | sign :: cs =>
    (sign == '+' || sign == '-') &&
      match oneOrTwo? cs with
      | none => false
      | some (_, []) => true
      | some (_, ':' :: minutes) => minutes.length = 2 && minutes.all Char.isDigit
      | some _ => false

def afterDay? (cs : List Char) : Option (List Char) :=
  match cs with
  | 'T' :: cs => some cs
  | 't' :: cs => some cs
  | ' ' :: cs => some (cs.dropWhile (· == ' '))
  | _ => none

def moment? (cs : List Char) : Option (Except Flaw Unit) := do
  let (year, cs) ← digits? 4 cs
  let (month, cs) ← oneOrTwo? (← after? '-' cs)
  let (day, cs) ← oneOrTwo? (← after? '-' cs)
  let (hour, cs) ← oneOrTwo? (← afterDay? cs)
  let (minute, cs) ← digits? 2 (← after? ':' cs)
  let (second, cs) ← digits? 2 (← after? ':' cs)
  if isZone (dropFraction cs) then
    some (checkDay year month day |>.bind fun _ => checkTime hour minute second)
  else none

def date? (cs : List Char) : Spelled Unit := (day? cs).or (moment? cs)

/-! ## Words -/

def nullWords : List (List Char) := ["", "~", "null", "Null", "NULL"].map String.toList

def trueWords : List (List Char) := ["true", "True", "TRUE"].map String.toList

def falseWords : List (List Char) := ["false", "False", "FALSE"].map String.toList

def Scalar.ofPlain (cs : List Char) : Except Flaw Scalar :=
  if nullWords.contains cs then .ok .null
  else if trueWords.contains cs then .ok (.bool true)
  else if falseWords.contains cs then .ok (.bool false)
  else
    match int? cs with
    | some n => n.map .int
    | none =>
      match float? cs with
      | some x => x.map .float
      | none =>
        match date? cs with
        | some d => d.map fun _ => .date cs
        | none => .ok (.text cs)

end Offside.Config
