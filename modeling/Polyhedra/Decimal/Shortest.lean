/-!
# Shortest decimal text of a floating-point number

A finite double is written with the fewest significant digits that read back
as the same number, the nearest such decimal among those, in positional
notation: never an exponent, and no fractional part on a whole number.

A positive double is `significand * 2 ^ exponent`; the reals that round to it
form an interval whose ends lie halfway to its two neighbours.  On each
decimal grid only the two grid points next to the value can be the nearest
ones inside the interval, and the first grid with such a point decides.  All
arithmetic is exact, on natural numbers.
-/

namespace Polyhedra

/-- The number `digits * 10 ^ exponent`. -/
structure Decimal where
  digits : Nat
  exponent : Int
deriving DecidableEq

namespace Decimal

/-- A positive fraction together with the ends of the interval that rounds to
it; all three share one denominator. -/
structure Interval where
  low : Nat
  value : Nat
  high : Nat
  denominator : Nat
  closed : Bool

/-- The interval of reals that round to `significand * 2 ^ exponent`.  The
ends belong to it when the significand is even.  `narrow` says that the
neighbour below is only half as far away as the one above. -/
def Interval.ofBinary (significand : Nat) (exponent : Int) (narrow : Bool) :
    Interval :=
  let numerator := fun k : Nat => k * Nat.pow 2 (exponent - 2).toNat
  { low := numerator (4 * significand - if narrow then 1 else 2)
    value := numerator (4 * significand)
    high := numerator (4 * significand + 2)
    denominator := Nat.pow 2 (2 - exponent).toNat
    closed := significand % 2 == 0 }

/-- Whether `digits * 10 ^ exponent` lies in the interval. -/
def Interval.contains (interval : Interval) (decimal : Decimal) : Bool :=
  let scaled :=
    decimal.digits * Nat.pow 10 decimal.exponent.toNat * interval.denominator
  let unit := Nat.pow 10 (-decimal.exponent).toNat
  if interval.closed then
    interval.low * unit ≤ scaled && scaled ≤ interval.high * unit
  else
    interval.low * unit < scaled && scaled < interval.high * unit

/-- The number of digits before the decimal point of the value; zero or
negative for a value that starts with that many zeros after the point. -/
def Interval.magnitude (interval : Interval) : Int :=
  if interval.value ≥ interval.denominator then
    (Nat.toDigits 10 (interval.value / interval.denominator)).length
  else
    let reciprocal :=
      (interval.denominator + interval.value - 1) / interval.value
    1 - (Nat.toDigits 10 (reciprocal - 1)).length

/-- The point nearest to the value on the grid of multiples of `10 ^
exponent`, if one of the two grid points around the value lies in the
interval.  Of two equally near ones it is the larger. -/
def Interval.onGrid? (interval : Interval) (exponent : Int) :
    Option Decimal :=
  let numerator := interval.value * Nat.pow 10 (-exponent).toNat
  let denominator := interval.denominator * Nat.pow 10 exponent.toNat
  let below : Decimal := ⟨numerator / denominator, exponent⟩
  let above : Decimal := ⟨numerator / denominator + 1, exponent⟩
  let nearerBelow := 2 * (numerator % denominator) < denominator
  match interval.contains below && below.digits != 0,
    interval.contains above with
  | true, true => some (if nearerBelow then below else above)
  | true, false => some below
  | false, true => some above
  | false, false => none

/-- The grids with one to seventeen significant digits are tried from the
coarsest on; seventeen digits always suffice. -/
def Interval.shortest (interval : Interval) : Decimal :=
  let onGridOf :=
    fun places : Nat => interval.onGrid? (interval.magnitude - 1 - places)
  ((List.range 17).findSome? onGridOf).getD ⟨0, 0⟩

/-- Positional notation, without zeros at the end of a fraction. -/
def text (decimal : Decimal) : String :=
  let digits := Nat.toDigits 10 decimal.digits
  if 0 ≤ decimal.exponent then
    String.ofList (digits ++ List.replicate decimal.exponent.toNat '0')
  else
    let places := (-decimal.exponent).toNat
    let padded := List.replicate (places + 1 - digits.length) '0' ++ digits
    let whole := padded.take (padded.length - places)
    let fraction :=
      (padded.drop (padded.length - places)).reverse.dropWhile (· == '0')
    String.ofList
      (if fraction.isEmpty then whole else whole ++ '.' :: fraction.reverse)

end Decimal

/-- The interval of a positive double, from the bits that store it. -/
def Decimal.Interval.ofBits (bits : UInt64) : Decimal.Interval :=
  let stored := ((bits >>> 52) &&& 0x7ff).toNat
  let fraction := (bits &&& 0xfffffffffffff).toNat
  if stored = 0 then
    .ofBinary fraction (-1074) false
  else
    .ofBinary (fraction + 0x10000000000000) (stored - 1075)
      (fraction = 0 && stored > 1)

/-- The text of any double: `NaN`, `inf` and `-inf` are spelled so, and zero
keeps its sign. -/
def shortestText (x : Float) : String :=
  if x.isNaN then "NaN"
  else
    let bits := x.toBits
    let sign := if bits >>> 63 == 1 then "-" else ""
    let body :=
      if x.isInf then "inf"
      else if x == 0 then "0"
      else (Decimal.Interval.ofBits
        (bits &&& 0x7fffffffffffffff)).shortest.text
    sign ++ body

end Polyhedra
