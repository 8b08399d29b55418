import Offside.Binary64.Nearest

/-!
# Values and their magnitudes

A finite value with a clear sign bit is its magnitude, and every number below `infinity` is the magnitude of one.
-/

namespace Offside.Binary64

/-- A finite value with a clear sign bit. -/
def IsPlain (x : Binary64) : Prop := x.isFinite = true ∧ x.isNegative = false

instance (x : Binary64) : Decidable x.IsPlain := inferInstanceAs (Decidable (_ ∧ _))

/-- The sign bit lies above all magnitudes. -/
theorem infinity_lt_signBit : infinity < signBit := by
  decide

/-- A magnitude below the sign bit is that of the number with it. -/
theorem magnitude_ofMagnitude {m : Nat} (h : m < signBit) : (ofMagnitude m).magnitude = m := by
  have hsign : signBit < 2 ^ 64 := by decide
  have hbits : m % 2 ^ 64 = m := Nat.mod_eq_of_lt (by omega)
  simp only [magnitude, ofMagnitude, UInt64.toNat_ofNat', hbits]
  exact Nat.mod_eq_of_lt h

theorem isPlain_ofMagnitude {m : Nat} (h : m < infinity) : (ofMagnitude m).IsPlain := by
  have hlt := infinity_lt_signBit
  have hsign : signBit < 2 ^ 64 := by decide
  constructor
  · rw [isFinite, magnitude_ofMagnitude (by omega)]
    exact decide_eq_true h
  · simp only [isNegative, ofMagnitude, UInt64.toNat_ofNat', decide_eq_false_iff_not]
    rw [Nat.mod_eq_of_lt (by omega)]
    omega

/-- A value with a clear sign bit is given by its magnitude. -/
theorem ofMagnitude_magnitude {x : Binary64} (h : x.isNegative = false) : ofMagnitude x.magnitude = x := by
  have hlt : x.bits.toNat < signBit := by simpa [isNegative] using h
  rw [magnitude, Nat.mod_eq_of_lt hlt, ofMagnitude, UInt64.ofNat_toNat]

/-- What a quotient is rounded to is finite and has a clear sign bit. -/
theorem isPlain_of_ofQuotient? {a d : Nat} {x : Binary64} (h : ofQuotient? a d = some x) : x.IsPlain := by
  rw [ofQuotient?] at h
  split at h
  · rename_i hlt
    cases h
    exact isPlain_ofMagnitude hlt
  · cases h

end Offside.Binary64
