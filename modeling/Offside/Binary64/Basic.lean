/-!
# Double-precision numbers

A number of a script is a double-precision value of the standard for binary floating point, kept as its sixty-four bits: one
for the sign, eleven for the exponent and fifty-two for the fraction. The program reads and writes such numbers and never
computes with them, so everything is said in natural numbers: a finite value is `significand * 2 ^ exponent` units of
`2 ^ (-1074)`, the smallest positive value.
-/

namespace Offside

/-- A double-precision value, given by its bit pattern. -/
structure Binary64 where
  bits : UInt64
deriving DecidableEq, Repr, Inhabited

namespace Binary64

/-- The sign bit, as a number. -/
def signBit : Nat := Nat.pow 2 63

/-- The leading binary digit of a significand, which the bit pattern leaves out. -/
def leadingDigit : Nat := Nat.pow 2 52

/-- The bit pattern without its sign. On finite values it grows with the magnitude, one step per value. -/
def magnitude (x : Binary64) : Nat := x.bits.toNat % signBit

/-- Whether the sign bit is set. -/
def isNegative (x : Binary64) : Bool := signBit ≤ x.bits.toNat

/-- The magnitude of infinity: every finite value lies below it and every value that is not a number above. -/
def infinity : Nat := 2047 * leadingDigit

/-- Whether a value is finite. -/
def isFinite (x : Binary64) : Bool := x.magnitude < infinity

/-- The value without its sign is `significand * 2 ^ exponent` units of `2 ^ (-1074)`. -/
def significand (x : Binary64) : Nat :=
  if x.magnitude < leadingDigit then x.magnitude else x.magnitude % leadingDigit + leadingDigit

/-- The exponent that goes with `significand`; it is zero for the values below `2 ^ (-1021)`. -/
def exponent (x : Binary64) : Nat := x.magnitude / leadingDigit - 1

/-- The value of a given magnitude with a clear sign bit. -/
def ofMagnitude (magnitude : Nat) : Binary64 := ⟨UInt64.ofNat magnitude⟩

end Binary64

end Offside
