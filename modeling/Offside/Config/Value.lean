import Offside.Number.Text
import Offside.Text.Quoted

/-!
# Configuration data

The value a project file holds before anything is asked of it: scalars, lists and
mappings.  Mappings keep their entries in the order they were written.  A key is a
scalar or a row of scalars.
-/
namespace Offside.Config

inductive Scalar
  | null
  | bool (b : Bool)
  | int (n : Int)
  | float (x : Float)
  /-- A day, or a time on a day, as it was written. -/
  | date (label : List Char)
  | text (cs : List Char)
deriving DecidableEq, Repr

inductive Key
  | scalar (s : Scalar)
  | row (items : List Scalar)
deriving DecidableEq, Repr

inductive Value
  | scalar (s : Scalar)
  | list (items : List Value)
  | map (entries : List (Key × Value))
deriving Repr, Inhabited

abbrev Entries := List (Key × Value)

/-- The most digits that a whole number is read or shown with in base ten. -/
def digitLimit : Nat := 4300

def Scalar.showable : Scalar → Bool
  | int n => n.natAbs < Nat.pow 10 digitLimit
  | _ => true

def Key.showable : Key → Bool
  | scalar s => s.showable
  | row items => items.all Scalar.showable

def Scalar.label : Scalar → String
  | null => "None"
  | bool true => "True"
  | bool false => "False"
  | int n => toString n
  | float x => String.ofList (Number.write x)
  | date label => String.ofList label
  | text cs => String.ofList cs

/-- The scalar as it is shown inside a row: a text stands in quotes. -/
def Scalar.itemLabel : Scalar → String
  | text cs => String.ofList (Quoted.encode cs)
  | s => s.label

def Key.label : Key → String
  | scalar s => s.label
  | row [s] => "(" ++ s.itemLabel ++ ",)"
  | row items => "(" ++ ", ".intercalate (items.map Scalar.itemLabel) ++ ")"

def Key.named (name : String) : Key := .scalar (.text name.toList)

def Entries.get? (entries : Entries) (key : String) : Option Value := entries.lookup (.named key)

/-- Null, false, zero and everything empty count as nothing. -/
def Value.isNothing : Value → Bool
  | scalar .null => true
  | scalar (.bool b) => !b
  | scalar (.int n) => n == 0
  | scalar (.float x) => x == 0
  | scalar (.date _) => false
  | scalar (.text cs) => cs.isEmpty
  | list items => items.isEmpty
  | map entries => entries.isEmpty

def Value.isMap : Value → Bool
  | map _ => true
  | _ => false

/-! ## Sameness

Two keys are the same if they stand for the same thing: truth values count as one and
zero, and a number is the same however it is written. -/

def wholeIsFloat (n : Int) (x : Float) : Bool :=
  match Number.Parts.of x with
  | .finite negative mantissa exponent =>
    let signed : Int := if negative then -(mantissa : Int) else mantissa
    n * (Nat.pow 2 (-exponent).toNat : Nat) == signed * (Nat.pow 2 exponent.toNat : Nat)
  | _ => false

def Scalar.whole? : Scalar → Option Int
  | bool b => some (if b then 1 else 0)
  | int n => some n
  | _ => none

def Scalar.same (s t : Scalar) : Bool :=
  match s.whole?, t.whole? with
  | some m, some n => m == n
  | some m, none =>
    match t with
    | float x => wholeIsFloat m x
    | _ => false
  | none, some n =>
    match s with
    | float x => wholeIsFloat n x
    | _ => false
  | none, none =>
    match s, t with
    | float x, float y => x == y || (x.isNaN && y.isNaN)
    | s, t => s == t

def Key.same : Key → Key → Bool
  | scalar s, scalar t => s.same t
  | row ss, row ts => ss.length == ts.length && (ss.zip ts).all fun p => p.1.same p.2
  | _, _ => false

def Entries.hasKey (entries : Entries) (key : Key) : Bool := entries.any fun e => e.1.same key

/-- Puts a value under a key, in the place the key has already or at the end. -/
def Entries.put (entries : Entries) (key : Key) (value : Value) : Entries :=
  if entries.hasKey key then entries.map fun e => if e.1.same key then (e.1, value) else e
  else entries ++ [(key, value)]

/-! ## Flaws -/

inductive Flaw
  /-- It breaks the rules of its format. -/
  | malformed
  /-- The digits of a whole number are none of the given base. -/
  | notWhole (base : Nat) (text : List Char)
  /-- A whole number has so many digits, and that is too many. -/
  | tooManyDigits (count : Nat)
  | notDecimal (text : List Char)
  | yearRange
  | monthRange
  | dayRange
  | hourRange
  | minuteRange
  | secondRange
  /-- An escape is beyond the last character. -/
  | characterRange
  /-- A row that is a key holds a list or a mapping. -/
  | keyHolds (kind : String)
deriving DecidableEq, Repr

def Flaw.message : Flaw → String
  | malformed => "malformed"
  | notWhole base text =>
    "invalid literal for int() with base " ++ toString base ++ ": " ++ String.ofList (Quoted.encode text)
  | tooManyDigits count =>
    "Exceeds the limit (" ++ toString digitLimit ++ " digits) for integer string conversion: value has " ++
      toString count ++ " digits; use sys.set_int_max_str_digits() to increase the limit"
  | notDecimal text => "could not convert string to float: " ++ String.ofList (Quoted.encode text)
  | yearRange => "year 0 is out of range"
  | monthRange => "month must be in 1..12"
  | dayRange => "day is out of range for month"
  | hourRange => "hour must be in 0..23"
  | minuteRange => "minute must be in 0..59"
  | secondRange => "second must be in 0..59"
  | characterRange => "chr() arg not in range(0x110000)"
  | keyHolds kind => "unhashable type: '" ++ kind ++ "'"

end Offside.Config
