import Offside.Proofs.Binary64.Rounding

/-!
# Quotients that are too large

The largest finite double is `2 ^ 1024 - 2 ^ 971`, and the next one, if there were one, would be `2 ^ 1024`. Halfway between them a
quotient is rounded to the even significand, which is that of `2 ^ 1024`, so there is a finite double for the quotients below
`2 ^ 1024 - 2 ^ 970` and for no others (`ofQuotient?_eq_none_iff`).
-/

namespace Offside.Binary64

/-- The least number that no finite double is nearest to. -/
@[irreducible] def ceiling : Nat := Nat.pow 2 1024 - Nat.pow 2 970

theorem ceiling_pos : 0 < ceiling := by
  unfold ceiling
  decide +kernel

/-- The ceiling lies half a unit below `2 ^ 53` units of the largest exponent. It is compared in halves of `2 ^ (-1074)`. -/
theorem ceiling_spec : ∃ top one, infinity = (top + 2) * leadingDigit ∧ Nat.pow 2 1074 = one ∧ 0 < one ∧
    (4 * leadingDigit - 1) * Nat.pow 2 top = 2 * one * ceiling := by
  unfold ceiling
  exact ⟨2045, Nat.pow 2 1074, rfl, rfl, by decide +kernel, by decide +kernel⟩

section

variable {a d : Nat}

/-- Rounding a quotient never goes below its whole part. -/
theorem div_le_roundQuotient (a d : Nat) : a / d ≤ roundQuotient a d := by
  unfold roundQuotient
  split
  · exact Nat.le_refl _
  · exact Nat.le_succ _

/-- Rounding a quotient goes at most one above its whole part. -/
theorem roundQuotient_le_div (a d : Nat) : roundQuotient a d ≤ a / d + 1 := by
  unfold roundQuotient
  split
  · exact Nat.le_succ _
  · exact Nat.le_refl _

/-- An odd number gives way to the next one from half a unit on. -/
theorem lt_roundQuotient_iff (hd : 0 < d) {k : Nat} (hk : k % 2 = 1) : k < roundQuotient a d ↔ (2 * k + 1) * d ≤ 2 * a := by
  have hdiv : a / d * d + a % d = a := Nat.div_add_mod' a d
  have hmod : a % d < d := Nat.mod_lt a hd
  have hexpand : (2 * k + 1) * d = 2 * (k * d) + d := by rw [Nat.succ_mul, Nat.mul_assoc]
  rw [hexpand]
  rcases Nat.lt_trichotomy (a / d) k with hlt | heq | hgt
  · have hmul : (a / d + 1) * d ≤ k * d := Nat.mul_le_mul_right d hlt
    have hround := roundQuotient_le_div a d
    rw [Nat.succ_mul] at hmul
    constructor <;> intro h <;> omega
  · -- the quotient lies between the odd number and the next one
    rw [roundQuotient, heq]
    rw [heq] at hdiv
    constructor
    · intro h
      split at h <;> omega
    · intro h
      rw [if_neg (by omega)]
      exact Nat.lt_succ_self k
  · have hmul : (k + 1) * d ≤ a / d * d := Nat.mul_le_mul_right d hgt
    have hround := div_le_roundQuotient a d
    rw [Nat.succ_mul] at hmul
    constructor <;> intro h <;> omega

end

/-- The exponent that rounding chooses leaves 53 binary digits, or it is zero. -/
theorem log2_sub_bounds (q : Nat) :
    q < 2 * leadingDigit * Nat.pow 2 (Nat.log2 q - 52) ∧
      (0 < Nat.log2 q - 52 → leadingDigit * Nat.pow 2 (Nat.log2 q - 52) ≤ q) := by
  change q < 2 * leadingDigit * 2 ^ (Nat.log2 q - 52) ∧ (0 < Nat.log2 q - 52 → leadingDigit * 2 ^ (Nat.log2 q - 52) ≤ q)
  have hhigh : 2 * leadingDigit * 2 ^ (Nat.log2 q - 52) = 2 ^ (53 + (Nat.log2 q - 52)) := (Nat.pow_add 2 53 _).symm
  have hlow : leadingDigit * 2 ^ (Nat.log2 q - 52) = 2 ^ (52 + (Nat.log2 q - 52)) := (Nat.pow_add 2 52 _).symm
  rw [hhigh, hlow]
  constructor
  · exact Nat.lt_of_lt_of_le Nat.lt_log2_self (Nat.pow_le_pow_right (by decide) (by omega))
  · intro he
    have hq : q ≠ 0 := by
      rintro rfl
      cases he
    rw [Nat.add_sub_cancel' (by omega)]
    exact Nat.log2_self_le hq

/-- Rounding reaches the magnitude behind those of an exponent from half a unit below it on. -/
theorem le_magnitude_iff {units d : Nat} (hd : 0 < d) (top : Nat) :
    let e := Nat.log2 (units / d) - 52
    (top + 2) * leadingDigit ≤ e * leadingDigit + roundQuotient units (d * Nat.pow 2 e) ↔
      (4 * leadingDigit - 1) * (d * Nat.pow 2 top) ≤ 2 * units := by
  intro e
  change _ ≤ _ + roundQuotient units (d * 2 ^ e) ↔ _ * (d * 2 ^ top) ≤ _
  obtain ⟨hhigh, hlow⟩ := log2_sub_bounds (units / d)
  rw [Nat.div_lt_iff_lt_mul hd, Nat.mul_assoc (2 * leadingDigit), Nat.mul_comm _ d, Nat.mul_assoc 2] at hhigh
  rw [Nat.le_div_iff_mul_le hd, Nat.mul_assoc, Nat.mul_comm _ d] at hlow
  change units < 2 * (leadingDigit * (d * 2 ^ e)) at hhigh
  change 0 < e → leadingDigit * (d * 2 ^ e) ≤ units at hlow
  have hL := leadingDigit_pos
  have hD : 0 < d * 2 ^ e := Nat.mul_pos hd (Nat.two_pow_pos e)
  have hdouble : ∀ {i j : Nat}, i < j → 2 * (d * 2 ^ i) ≤ d * 2 ^ j := by
    intro i j hij
    rw [Nat.mul_left_comm, ← Nat.pow_succ']
    exact Nat.mul_le_mul_left d (Nat.pow_le_pow_right (by decide) hij)
  generalize leadingDigit = L at *
  rcases Nat.lt_trichotomy e top with hlt | heq | hgt
  · -- below the exponent neither is reached
    refine iff_of_false (fun h => ?_) fun h => ?_
    · have hdiv : units / (d * 2 ^ e) < 2 * L := by
        rw [Nat.div_lt_iff_lt_mul hD, Nat.mul_assoc]
        exact hhigh
      have hround := roundQuotient_le_div units (d * 2 ^ e)
      have hmul : (e + 3) * L ≤ (top + 2) * L := Nat.mul_le_mul_right L (by omega)
      rw [Nat.add_mul] at hmul
      omega
    · have hmul := Nat.mul_le_mul_left L (hdouble hlt)
      have hself : d * 2 ^ top ≤ L * (d * 2 ^ top) := Nat.le_mul_of_pos_left _ hL
      rw [Nat.mul_left_comm] at hmul
      rw [Nat.sub_mul, Nat.mul_assoc, Nat.one_mul] at h
      omega
  · have hodd : (2 * L - 1) % 2 = 1 := by omega
    have hround := lt_roundQuotient_iff (a := units) hD hodd
    have hfour : 2 * (2 * L - 1) + 1 = 4 * L - 1 := by omega
    rw [hfour] at hround
    rw [← heq, ← hround, Nat.add_mul]
    omega
  · -- above it both are
    have hlow := hlow (by omega)
    refine iff_of_true ?_ ?_
    · have hdiv : L ≤ units / (d * 2 ^ e) := (Nat.le_div_iff_mul_le hD).mpr hlow
      have hround := div_le_roundQuotient units (d * 2 ^ e)
      have hmul : (top + 2) * L ≤ (e + 1) * L := Nat.mul_le_mul_right L (by omega)
      rw [Nat.succ_mul e] at hmul
      omega
    · have hmul := Nat.mul_le_mul_left L (hdouble hgt)
      rw [Nat.mul_left_comm] at hmul
      rw [Nat.sub_mul, Nat.mul_assoc]
      omega

/-- There is no finite double for the quotients from the ceiling on. -/
theorem ofQuotient?_eq_none_iff {a d : Nat} (hd : 0 < d) : ofQuotient? a d = none ↔ ceiling * d ≤ a := by
  have hnone : ofQuotient? a d = none ↔ infinity ≤ nearest a d := by
    unfold ofQuotient?
    split
    · rename_i hlt
      simp [hlt]
    · rename_i hlt
      simpa using hlt
  obtain ⟨top, one, hinfinity, hone, hpos, hceiling⟩ := ceiling_spec
  have hreaches : infinity ≤ nearest a d ↔ (4 * leadingDigit - 1) * (d * Nat.pow 2 top) ≤ 2 * (a * one) := by
    rw [hinfinity, nearest, hone]
    exact le_magnitude_iff hd top
  have hleft : (4 * leadingDigit - 1) * (d * Nat.pow 2 top) = 2 * one * (ceiling * d) := by
    rw [Nat.mul_left_comm, hceiling, Nat.mul_comm d, Nat.mul_assoc]
  have hright : 2 * (a * one) = 2 * one * a := by rw [Nat.mul_comm a, Nat.mul_assoc]
  rw [hnone, hreaches, hleft, hright]
  exact Nat.mul_le_mul_left_iff (Nat.mul_pos Nat.two_pos hpos)

end Offside.Binary64
