import Offside.Binary64.Basic

/-!
# The double nearest to a quotient

A quotient of natural numbers is rounded to the nearest double, and halfway between two doubles to the one with the even
significand. The rounding is exact: it compares natural numbers of any size.
-/

namespace Offside.Binary64

/-- The natural number nearest to `a / d`, and the even one of two that are equally near. -/
def roundQuotient (a d : Nat) : Nat :=
  if 2 * (a % d) < d ∨ (2 * (a % d) = d ∧ a / d % 2 = 0) then a / d else a / d + 1

/-- The magnitude of the double nearest to `a / d`. It is `infinity` or more when `a / d` is too large for a finite value.

In units of `2 ^ (-1074)` the quotient is rounded to a multiple of `2 ^ e`, where `e` leaves 53 binary digits, or is zero for
quotients with fewer. A significand `m` with exponent `e` has the magnitude `e * 2 ^ 52 + m`; this also holds when `m` has no
leading binary digit to hide, and when rounding carries it to `2 ^ 53`. -/
def nearest (a d : Nat) : Nat :=
  let units := a * Nat.pow 2 1074
  let e := Nat.log2 (units / d) - 52
  e * leadingDigit + roundQuotient units (d * Nat.pow 2 e)

/-- The finite double nearest to `a / d`, if there is one: quotients from `2 ^ 1024 - 2 ^ 970` on have none. -/
def ofQuotient? (a d : Nat) : Option Binary64 :=
  if nearest a d < infinity then some (ofMagnitude (nearest a d)) else none

end Offside.Binary64
