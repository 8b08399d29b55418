import Offside.Binary64.Nearest
import Offside.Proofs.Binary64.Literal

/-!
# The interval of a double rounds to it

`interval` says which reals a double stands for, and `nearest` which double a quotient is rounded to. They agree: every point of the
interval of a finite double is rounded to it. The shortest decimal is such a point.
-/

namespace Offside.Binary64

theorem pow_positive {b : Nat} (h : 0 < b) (n : Nat) : 0 < Nat.pow b n := Nat.pow_pos h

/-- A quotient within half a unit of a number is rounded to it, and from a distance of half a unit if the number is even. -/
theorem roundQuotient_eq {a d m : Nat} (hd : 0 < d) (hlow : 2 * (m * d) ≤ 2 * a + d) (hhigh : 2 * a ≤ 2 * (m * d) + d)
    (htie : 2 * (m * d) = 2 * a + d ∨ 2 * a = 2 * (m * d) + d → m % 2 = 0) : roundQuotient a d = m := by
  have hdiv : a / d * d + a % d = a := Nat.div_add_mod' a d
  have hmod : a % d < d := Nat.mod_lt a hd
  have hle : a / d ≤ m := by
    refine Nat.le_of_not_lt fun hlt => ?_
    have hmul : (m + 1) * d ≤ a / d * d := Nat.mul_le_mul_right d hlt
    rw [Nat.succ_mul] at hmul
    omega
  have hge : m ≤ a / d + 1 := by
    refine Nat.le_of_not_lt fun hlt => ?_
    have hmul : (a / d + 1 + 1) * d ≤ m * d := Nat.mul_le_mul_right d hlt
    rw [Nat.succ_mul, Nat.succ_mul] at hmul
    omega
  rw [roundQuotient]
  rcases Nat.eq_or_lt_of_le hle with heq | hlt
  · rw [← heq] at hhigh htie ⊢
    rw [if_pos]
    omega
  · have heq : m = a / d + 1 := by omega
    have hmul : m * d = a / d * d + d := by rw [heq, Nat.succ_mul]
    rw [if_neg, heq]
    omega

/-- A quotient is rounded alike when it is expanded. -/
theorem roundQuotient_mul (a d : Nat) {c : Nat} (hc : 0 < c) : roundQuotient (a * c) (d * c) = roundQuotient a d := by
  have hlt : 2 * (a % d * c) < d * c ↔ 2 * (a % d) < d := by
    rw [← Nat.mul_assoc]
    exact Nat.mul_lt_mul_right hc
  have heq : 2 * (a % d * c) = d * c ↔ 2 * (a % d) = d := by
    rw [← Nat.mul_assoc]
    exact Nat.mul_left_inj (by omega)
  simp only [roundQuotient, Nat.mul_mod_mul_right, Nat.mul_div_mul_right _ _ hc, hlt, heq]

/-- Rounding depends on the quotient alone. -/
theorem nearest_mul (a d : Nat) {c : Nat} (hc : 0 < c) : nearest (a * c) (d * c) = nearest a d := by
  have hunits : a * c * Nat.pow 2 1074 = a * Nat.pow 2 1074 * c := Nat.mul_right_comm ..
  simp only [nearest, hunits, Nat.mul_div_mul_right _ _ hc]
  rw [Nat.mul_right_comm d c, roundQuotient_mul _ _ hc]

/-- A unit of `2 ^ (-1074)`, in units of `10 ^ (-places)`. -/
@[irreducible] def grain : Nat := 4 * Nat.pow 5 places

/-- Four quarters of a grain are a grain, `k` times. -/
theorem grain_mul (k : Nat) : 4 * (k * Nat.pow 5 places) = grain * k := by
  unfold grain
  generalize Nat.pow 5 places = p
  rw [Nat.mul_assoc, Nat.mul_comm k]

theorem grain_pos : 0 < grain := by
  unfold grain
  exact Nat.mul_pos (by decide) (pow_positive (by decide) places)

/-- The number one, in grains. -/
theorem one_eq : one = grain * Nat.pow 2 1074 := by
  decide +kernel

theorem one_pos : 0 < one := by
  unfold one
  exact pow_positive (by decide) places

/-- The double nearest to a decimal with `places` places. -/
theorem nearest_one (n : Nat) :
    nearest n one = (Nat.log2 (n / grain) - 52) * leadingDigit +
      roundQuotient n (grain * Nat.pow 2 (Nat.log2 (n / grain) - 52)) := by
  have hpos := pow_positive (b := 2) (by decide) 1074
  have hdiv (c : Nat) (hc : 0 < c) : n * c / (grain * c) = n / grain := Nat.mul_div_mul_right n grain hc
  rw [one_eq]
  unfold nearest
  dsimp only
  rw [hdiv (Nat.pow 2 1074) hpos, Nat.mul_right_comm grain, roundQuotient_mul _ _ hpos]

section Significand

variable (x : Binary64)

theorem leadingDigit_pos : 0 < leadingDigit := by
  decide

/-- The significand of a double has one digit more than its fraction. -/
theorem significand_lt : x.significand < 2 * leadingDigit := by
  have hmod := Nat.mod_lt x.magnitude leadingDigit_pos
  rw [significand]
  split <;> omega

/-- Only the significands of the smallest values have no leading digit. -/
theorem leadingDigit_le_significand {x : Binary64} (h : 0 < x.exponent) : leadingDigit ≤ x.significand := by
  rw [exponent] at h
  have hle : ¬x.magnitude < leadingDigit := fun hlt => by
    rw [Nat.div_eq_of_lt hlt] at h
    cases h
  rw [significand, if_neg hle]
  exact Nat.le_add_left ..

/-- The magnitude of a double is put together from its exponent and its significand. -/
theorem magnitude_eq : x.magnitude = x.exponent * leadingDigit + x.significand := by
  rw [exponent, significand]
  split
  case isTrue h => rw [Nat.div_eq_of_lt h, Nat.zero_sub, Nat.zero_mul, Nat.zero_add]
  case isFalse h =>
    have hdiv := Nat.div_add_mod' x.magnitude leadingDigit
    have hpos : 0 < x.magnitude / leadingDigit := Nat.div_pos (by omega) leadingDigit_pos
    rw [Nat.sub_mul]
    have hle : 1 * leadingDigit ≤ x.magnitude / leadingDigit * leadingDigit := Nat.mul_le_mul_right _ hpos
    omega

end Significand

/-- The exponent that rounding chooses for a decimal that takes part of the range of the exponent `e`. -/
theorem log2_sub_eq {n e : Nat} (hhigh : n < 2 * leadingDigit * (grain * Nat.pow 2 e))
    (hlow : 0 < e → leadingDigit * (grain * Nat.pow 2 e) ≤ n) : Nat.log2 (n / grain) - 52 = e := by
  have hlt : n / grain < 2 ^ (53 + e) := by
    rw [Nat.div_lt_iff_lt_mul grain_pos, Nat.pow_add]
    calc n < 2 * leadingDigit * (grain * 2 ^ e) := hhigh
      _ = 2 ^ 53 * 2 ^ e * grain := by
        rw [Nat.mul_comm grain, Nat.mul_assoc (2 ^ 53)]
        rfl
  by_cases he : e = 0
  · subst he
    by_cases hz : n / grain = 0
    · rw [hz]
      rfl
    · have := (Nat.log2_lt hz).mpr hlt
      omega
  · have hge : 2 ^ (52 + e) ≤ n / grain := by
      rw [Nat.le_div_iff_mul_le grain_pos, Nat.pow_add]
      calc 2 ^ 52 * 2 ^ e * grain = leadingDigit * (grain * 2 ^ e) := by
            rw [Nat.mul_comm grain, Nat.mul_assoc (2 ^ 52)]
            rfl
        _ ≤ n := hlow (by omega)
    have hz : n / grain ≠ 0 := by
      have := Nat.two_pow_pos (52 + e)
      omega
    have hle := (Nat.le_log2 hz).mpr hge
    have hlt := (Nat.log2_lt hz).mpr hlt
    omega

namespace Interval

/-- A number in an interval lies between the bounds, and on one of them only if they belong to the interval. -/
theorem bounds_of_contains {i : Interval} {n : Nat} (hle : i.low ≤ i.high) (h : i.contains n = true) :
    i.low ≤ n ∧ n ≤ i.high ∧ (n = i.low ∨ n = i.high → i.closed = true) := by
  simp only [contains, Bool.or_eq_true, Bool.and_eq_true, decide_eq_true_eq] at h
  rcases h with ⟨hlow, hhigh⟩ | ⟨hclosed, hn⟩
  · refine ⟨by omega, by omega, fun hn => ?_⟩
    omega
  · exact ⟨by omega, by omega, fun _ => hclosed⟩

/-- A point of the grid that is found for an interval lies in it. -/
theorem contains_of_onGrid {i : Interval} {step n : Nat} (h : i.onGrid step = some n) : i.contains n = true := by
  simp only [onGrid] at h
  split at h
  case isTrue hboth =>
    simp only [Bool.and_eq_true] at hboth
    cases h
    split
    · exact hboth.1
    · exact hboth.2
  case isFalse =>
    split at h
    · cases h
      assumption
    · split at h
      · cases h
        assumption
      · cases h

/-- Whatever grid is tried, the number chosen is in the interval if the value is. -/
theorem contains_coarsest {i : Interval} (h : i.contains i.value = true) (k : Nat) : i.contains (i.coarsest k) = true := by
  induction k with
  | zero => exact h
  | succ k ih =>
    rw [coarsest]
    cases hgrid : i.onGrid (Nat.pow 10 (k + 1)) with
    | none => exact ih
    | some n => exact contains_of_onGrid hgrid

end Interval

/-- A decimal close to `m * 2 ^ e` is rounded to it, if that has the exponent `e`. -/
theorem nearest_near {n m e : Nat} (hlt : m < 2 * leadingDigit) (hleading : 0 < e → leadingDigit * (grain * Nat.pow 2 e) ≤ n)
    (hlow : 2 * (m * (grain * Nat.pow 2 e)) ≤ 2 * n + grain * Nat.pow 2 e)
    (hhigh : 2 * n ≤ 2 * (m * (grain * Nat.pow 2 e)) + grain * Nat.pow 2 e)
    (htie : 2 * (m * (grain * Nat.pow 2 e)) = 2 * n + grain * Nat.pow 2 e ∨
      2 * n = 2 * (m * (grain * Nat.pow 2 e)) + grain * Nat.pow 2 e → m % 2 = 0) :
    nearest n one = e * leadingDigit + m := by
  have hpos : 0 < grain * Nat.pow 2 e := Nat.mul_pos grain_pos (pow_positive (by decide) e)
  have hexponent : Nat.log2 (n / grain) - 52 = e := by
    refine log2_sub_eq ?_ hleading
    have hmul : (m + 1) * (grain * Nat.pow 2 e) ≤ 2 * leadingDigit * (grain * Nat.pow 2 e) := Nat.mul_le_mul_right _ hlt
    rw [Nat.succ_mul] at hmul
    omega
  rw [nearest_one, hexponent, roundQuotient_eq hpos hlow hhigh htie]

/-- A decimal just below the power of two `2 ^ (52 + e)` is rounded to it. Rounding chooses the exponent below `e`, and carries. -/
theorem nearest_below_power {n e : Nat} (hlt : n < leadingDigit * (grain * Nat.pow 2 (e + 1)))
    (hlow : 4 * (leadingDigit * (grain * Nat.pow 2 (e + 1))) ≤ 4 * n + grain * Nat.pow 2 (e + 1)) :
    nearest n one = (e + 1) * leadingDigit + leadingDigit := by
  have hpos : 0 < grain * Nat.pow 2 e := Nat.mul_pos grain_pos (pow_positive (by decide) e)
  have hdouble : grain * Nat.pow 2 (e + 1) = 2 * (grain * Nat.pow 2 e) := by
    rw [Nat.mul_left_comm, ← Nat.mul_comm (Nat.pow 2 e)]
    rfl
  have hle : grain * Nat.pow 2 e ≤ leadingDigit * (grain * Nat.pow 2 e) := Nat.le_mul_of_pos_left _ leadingDigit_pos
  rw [hdouble, Nat.mul_left_comm leadingDigit] at hlt hlow
  have hexponent : Nat.log2 (n / grain) - 52 = e := by
    refine log2_sub_eq ?_ fun _ => by omega
    rwa [Nat.mul_assoc]
  have hround : roundQuotient n (grain * Nat.pow 2 e) = 2 * leadingDigit := by
    refine roundQuotient_eq hpos ?_ ?_ fun _ => Nat.mul_mod_right 2 leadingDigit
    · rw [Nat.mul_assoc]
      omega
    · rw [Nat.mul_assoc]
      omega
  rw [nearest_one, hexponent, hround, Nat.succ_mul e]
  omega

/-- Every point of the interval of a double is rounded to it. -/
theorem nearest_of_contains {x : Binary64} {n : Nat} (h : x.interval.contains n = true) : nearest n one = x.magnitude := by
  have hle : x.interval.low ≤ x.interval.high := by
    simp only [interval]
    omega
  obtain ⟨hlow, hhigh, hclosed⟩ := Interval.bounds_of_contains hle h
  have hgrain := grain_mul (Nat.pow 2 x.exponent)
  have hvalue : 4 * x.significand * (Nat.pow 2 x.exponent * Nat.pow 5 places) =
      x.significand * (grain * Nat.pow 2 x.exponent) := by
    rw [← hgrain, Nat.mul_comm 4, Nat.mul_assoc]
  have hpos : 0 < grain * Nat.pow 2 x.exponent := Nat.mul_pos grain_pos (pow_positive (by decide) _)
  have hbelow : (if x.significand = leadingDigit ∧ 0 < x.exponent then Nat.pow 2 x.exponent * Nat.pow 5 places
      else 2 * (Nat.pow 2 x.exponent * Nat.pow 5 places)) ≤ 2 * (Nat.pow 2 x.exponent * Nat.pow 5 places) := by
    split <;> omega
  simp only [interval, decide_eq_true_eq, hvalue] at hlow hhigh hclosed
  rw [magnitude_eq]
  by_cases hpower : x.significand = leadingDigit ∧ 0 < x.exponent ∧ n < leadingDigit * (grain * Nat.pow 2 x.exponent)
  · obtain ⟨hleading, hexponent, hlt⟩ := hpower
    rw [if_pos ⟨hleading, hexponent⟩, hleading] at hlow
    obtain ⟨e, he⟩ : ∃ e, x.exponent = e + 1 := ⟨x.exponent - 1, by omega⟩
    rw [he] at hgrain hlow hlt ⊢
    rw [hleading]
    exact nearest_below_power hlt (by omega)
  · refine nearest_near x.significand_lt (fun hexponent => ?_) (by omega) (by omega) fun htie => hclosed (by omega)
    rcases Nat.eq_or_lt_of_le (leadingDigit_le_significand hexponent) with heq | hlt
    · omega
    · have hmul : (leadingDigit + 1) * (grain * Nat.pow 2 x.exponent) ≤ x.significand * (grain * Nat.pow 2 x.exponent) :=
        Nat.mul_le_mul_right _ hlt
      rw [Nat.succ_mul] at hmul
      omega

/-- The value of a double lies in its own interval. -/
theorem contains_value (x : Binary64) : x.interval.contains x.interval.value = true := by
  have hquarter : 0 < Nat.pow 2 x.exponent * Nat.pow 5 places :=
    Nat.mul_pos (pow_positive (by decide) _) (pow_positive (by decide) _)
  unfold interval
  generalize Nat.pow 2 x.exponent * Nat.pow 5 places = quarter at hquarter ⊢
  simp only [Interval.contains, Bool.or_eq_true, Bool.and_eq_true, decide_eq_true_eq]
  by_cases hzero : x.significand = 0
  · -- Zero is its own lower bound.
    rw [hzero, Nat.mul_zero, Nat.zero_mul, Nat.zero_sub]
    exact .inr ⟨rfl, .inl rfl⟩
  · have hvalue : 0 < 4 * x.significand * quarter := Nat.mul_pos (by omega) hquarter
    refine .inl ⟨?_, by omega⟩
    split <;> omega

/-- The shortest decimal of a finite value is rounded to it. -/
theorem nearest_shortestUnits (x : Binary64) : nearest x.shortestUnits one = x.magnitude := by
  refine nearest_of_contains ?_
  rw [shortestUnits]
  split
  case isTrue hzero =>
    have hsignificand : x.significand = 0 := by
      rw [significand, hzero, if_pos leadingDigit_pos]
    have hvalue : x.interval.value = 0 := by
      simp only [interval, hsignificand, Nat.mul_zero, Nat.zero_mul]
    exact hvalue ▸ x.contains_value
  case isFalse => exact Interval.contains_coarsest x.contains_value _

/-- A finite value with a clear sign bit is what its shortest decimal is rounded to. -/
theorem ofQuotient?_shortestUnits {x : Binary64} (h : x.IsPlain) : ofQuotient? x.shortestUnits one = some x := by
  have hfinite : x.magnitude < infinity := of_decide_eq_true h.1
  rw [ofQuotient?, nearest_shortestUnits, if_pos hfinite, ofMagnitude_magnitude h.2]

end Offside.Binary64
