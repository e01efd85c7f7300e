/-!
# The shortest decimal of a double

A finite double is `mantissa · 2 ^ exponent`.  The reals that round to it form an
interval around it, and among the decimals inside that interval the shortest is
wanted, and the nearest one of those.  All of it is arithmetic on `Nat`: for one,
two, … digits the two neighbours of the value on that decimal grid are tried, and
the first grid that has one of them in the interval gives the answer.
-/
namespace Offside.Number

inductive Parts
  | nan
  | infinite (negative : Bool)
  /-- The magnitude is `mantissa · 2 ^ exponent`. -/
  | finite (negative : Bool) (mantissa : Nat) (exponent : Int)
deriving DecidableEq, Repr

def fractionSize : Nat := 4503599627370496

def signWeight : Nat := 9223372036854775808

def leastExponent : Int := -1074

def Parts.of (x : Float) : Parts :=
  let bits := x.toBits.toNat
  let fraction := bits % fractionSize
  let field := bits / fractionSize % 2048
  let negative := bits ≥ signWeight
  if field = 2047 then (if fraction = 0 then .infinite negative else .nan)
  else if field = 0 then .finite negative fraction leastExponent
  else .finite negative (fractionSize + fraction) (field - 1075)

/-- A decimal `digits · 10 ^ exponent`. -/
structure Decimal where
  digits : Nat
  exponent : Int
deriving DecidableEq, Repr

structure Interval where
  low : Nat
  value : Nat
  high : Nat
  denominator : Nat
  /-- The ends themselves round to the value. -/
  closed : Bool
deriving DecidableEq, Repr

/-- The reals that round to `mantissa · 2 ^ exponent`.  Below a power of two the next double is
only half as far away. -/
def Interval.around (mantissa : Nat) (exponent : Int) : Interval :=
  let up := Nat.pow 2 exponent.toNat
  let down := Nat.pow 2 (-exponent).toNat
  let nearBelow := mantissa = fractionSize && exponent > leastExponent
  { low := (4 * mantissa - (if nearBelow then 1 else 2)) * up
    value := 4 * mantissa * up
    high := (4 * mantissa + 2) * up
    denominator := 4 * down
    closed := mantissa % 2 = 0 }

namespace Interval

def inUnits (i : Interval) (unit : Int) : Interval :=
  let up := Nat.pow 10 (-unit).toNat
  { i with
    low := i.low * up
    value := i.value * up
    high := i.high * up
    denominator := i.denominator * Nat.pow 10 unit.toNat }

def contains (i : Interval) (n : Nat) : Bool :=
  let x := n * i.denominator
  if i.closed then i.low ≤ x && x ≤ i.high else i.low < x && x < i.high

/-- The number of units in the interval that is nearest to its value; of two, the even one. -/
def nearest? (i : Interval) : Option Nat :=
  let below := i.value / i.denominator
  let above := below + 1
  let toBelow := i.value - below * i.denominator
  let toAbove := above * i.denominator - i.value
  match i.contains below, i.contains above with
  | false, false => none
  | true, false => some below
  | false, true => some above
  | true, true =>
    if toBelow < toAbove then some below
    else if toAbove < toBelow then some above
    else some (if below % 2 = 0 then below else above)

/-- The place of the first digit of the value: the greatest `k` with `10 ^ k ≤ value`. -/
def magnitude (i : Interval) : Int :=
  let guess : Int := (Nat.toDigits 10 i.value).length - (Nat.toDigits 10 i.denominator).length
  if i.denominator * Nat.pow 10 guess.toNat ≤ i.value * Nat.pow 10 (-guess).toNat then guess else guess - 1

end Interval

def mostDigits : Nat := 17

def shortest (mantissa : Nat) (exponent : Int) : Decimal :=
  let i := Interval.around mantissa exponent
  let k := i.magnitude
  let atSize (size : Nat) : Option Decimal :=
    let unit := k - size
    (i.inUnits unit).nearest?.map fun n => { digits := n, exponent := unit }
  ((List.range mostDigits).findSome? atSize).getD { digits := 0, exponent := 0 }

end Offside.Number
