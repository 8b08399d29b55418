import Offside.Binary64.Basic

/-!
# The shortest decimal of a double

Every double that is finite, together with the bounds of the interval of reals that round to it, is a natural number of units
of `10 ^ (-1076)`: the value is a multiple of `2 ^ (-1074)` and the bounds are multiples of `2 ^ (-1076)`. The shortest decimal
that reads back as the value is the point of the coarsest decimal grid that has a point in the interval; of the two points of
that grid beside the value it is the nearer one that lies in the interval, and the upper one when both are equally near.
-/

namespace Offside.Binary64

/-- The number of decimal places that hold every double and the bounds of its interval exactly. -/
def places : Nat := 1076

/-- The number one, in units of `10 ^ (-places)`. -/
def one : Nat := Nat.pow 10 places

/-- The reals that round to a double, and the double itself, in units of `10 ^ (-places)`. -/
structure Interval where
  low : Nat
  value : Nat
  high : Nat
  /-- Whether the bounds themselves round to the double. -/
  closed : Bool
deriving DecidableEq, Repr

/-- The interval of reals that round to a finite double, its sign aside. Below a power of two the next double is only half as
far away as above it, and ties round to the even significand. -/
def interval (x : Binary64) : Interval :=
  let quarter := Nat.pow 2 x.exponent * Nat.pow 5 places
  let value := 4 * x.significand * quarter
  let below := if x.significand = leadingDigit ∧ 0 < x.exponent then quarter else 2 * quarter
  { low := value - below, value, high := value + 2 * quarter, closed := x.significand % 2 = 0 }

namespace Interval

/-- Whether a number of units lies in the interval. -/
def contains (i : Interval) (n : Nat) : Bool :=
  (i.low < n && n < i.high) || (i.closed && (n = i.low || n = i.high))

/-- The point of the grid of step `step` that stands for the value, if one of the two points beside it is in the interval. -/
def onGrid (i : Interval) (step : Nat) : Option Nat :=
  let below := i.value / step * step
  let above := below + step
  if i.contains below && i.contains above then
    some (if i.value - below < above - i.value then below else above)
  else if i.contains below then some below
  else if i.contains above then some above
  else none

/-- The point of the coarsest grid of step at most `10 ^ k` that has one in the interval. -/
def coarsest (i : Interval) : Nat → Nat
  | 0 => i.value
  | k + 1 => (i.onGrid (Nat.pow 10 (k + 1))).getD (i.coarsest k)

/-- The shortest decimal in the interval, in units of `10 ^ (-places)`. The first grid tried is coarser than the interval is
far from zero. -/
def shortest (i : Interval) : Nat := i.coarsest (Nat.log2 i.high / 3 + 1)

end Interval

/-- The decimal digits of a number of units of `10 ^ (-places)` behind the point, without the zeros at the end. -/
def fractionDigits (units : Nat) : List Char :=
  let digits := Nat.toDigits 10 (units % one)
  ((List.replicate (places - digits.length) '0' ++ digits).reverse.dropWhile (· == '0')).reverse

/-- A number of units of `10 ^ (-places)` in positional notation; a whole number has no point. -/
def positional (units : Nat) : String :=
  let whole := String.ofList (Nat.toDigits 10 (units / one))
  let fraction := fractionDigits units
  if fraction.isEmpty then whole else whole ++ "." ++ String.ofList fraction

/-- The text of a double without its sign. -/
def magnitudeText (x : Binary64) : String :=
  if x.magnitude = 0 then "0"
  else if x.isFinite then positional x.interval.shortest
  else "inf"

/-- The shortest text that reads back as the double, never with an exponent. A whole number has no point, and a value that is
not a number has no sign. -/
def text (x : Binary64) : String :=
  if infinity < x.magnitude then "NaN"
  else if x.isNegative then "-" ++ x.magnitudeText
  else x.magnitudeText

/-- The text of a double as a literal of the output: it always has a point. -/
def literal (x : Binary64) : String :=
  if x.text.toList.contains '.' then x.text else x.text ++ ".0"

end Offside.Binary64
