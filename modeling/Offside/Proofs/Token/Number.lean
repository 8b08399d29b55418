import Offside.Proofs.Binary64.Rounding
import Offside.Token.Lexeme

/-!
# Literals read back

The literal of a finite value with a clear sign bit has that value. Its digits are those of the shortest decimal, without the zeros at
the end; zeros there scale the numerator and the denominator of the decimal alike, and rounding depends on the quotient alone.
-/

namespace Offside

namespace Lexeme

theorem digitsValue_eq (digits : List Char) : digitsValue digits = Nat.ofDigitChars 10 digits 0 := rfl

/-- The digits in front count as many times more as there are digits behind. -/
theorem digitsValue_append (xs ys : List Char) :
    digitsValue (xs ++ ys) = digitsValue xs * Nat.pow 10 ys.length + digitsValue ys := by
  simp only [digitsValue_eq]
  rw [Nat.ofDigitChars_append, Nat.ofDigitChars_eq_ofDigitChars_zero, Nat.mul_comm]
  rfl

theorem digitsValue_zeros (k : Nat) : digitsValue (List.replicate k '0') = 0 := by
  induction k with
  | zero => rfl
  | succ k ih =>
    rw [List.replicate_succ', digitsValue_append, ih]
    rfl

/-- The digits of a number have its value. -/
theorem digitsValue_toDigits (n : Nat) : digitsValue (Nat.toDigits 10 n) = n :=
  Nat.ofDigitChars_toDigits (by decide) (by decide)

end Lexeme

/-- Zeros at the end of a row of digits, put back. -/
theorem dropTrailing_append_zeros (digits : List Char) :
    ∃ k, (digits.reverse.dropWhile (· == '0')).reverse ++ List.replicate k '0' = digits := by
  have hzeros : digits.reverse.takeWhile (· == '0') = List.replicate (digits.reverse.takeWhile (· == '0')).length '0' := by
    refine List.eq_replicate_of_mem fun c hc => ?_
    exact eq_of_beq (List.all_eq_true.mp List.all_takeWhile c hc)
  refine ⟨(digits.reverse.takeWhile (· == '0')).length, ?_⟩
  rw [← List.reverse_replicate, ← hzeros, ← List.reverse_append, List.takeWhile_append_dropWhile, List.reverse_reverse]

namespace Binary64

/-- The digits of a number of units of `10 ^ (-places)` behind the point, to the last place. -/
def placeDigits (units : Nat) : List Char :=
  List.replicate (places - (Nat.toDigits 10 (units % one)).length) '0' ++ Nat.toDigits 10 (units % one)

/-- A fraction is written with all its places. -/
theorem length_placeDigits (units : Nat) : (placeDigits units).length = places := by
  have hlt : units % one < 10 ^ places := Nat.mod_lt units one_pos
  have hle := (Nat.length_toDigits_le_iff (by decide) (by decide)).mpr hlt
  rw [placeDigits, List.length_append, List.length_replicate]
  omega

/-- The places of a fraction have the value of the fraction. -/
theorem digitsValue_placeDigits (units : Nat) : Lexeme.digitsValue (placeDigits units) = units % one := by
  rw [placeDigits, Lexeme.digitsValue_append, Lexeme.digitsValue_zeros, Nat.zero_mul, Nat.zero_add,
    Lexeme.digitsValue_toDigits]

/-- The digits behind the point of a literal are those to the last place, up to zeros at the end. -/
theorem fractionOf_append_zeros (units : Nat) : ∃ k, fractionOf units ++ List.replicate k '0' = placeDigits units := by
  obtain ⟨k, hk⟩ : ∃ k, fractionDigits units ++ List.replicate k '0' = placeDigits units :=
    dropTrailing_append_zeros (placeDigits units)
  rw [fractionOf]
  split
  case isTrue hnil =>
    have hlength := congrArg List.length hk
    rw [hnil, List.nil_append, List.length_replicate, length_placeDigits] at hlength
    refine ⟨places - 1, ?_⟩
    rw [← hk, hnil, hlength]
    rfl
  case isFalse => exact ⟨k, hk⟩

/-- The decimal that a literal spells is the number of units it was written for. -/
theorem ofQuotient?_digits (units : Nat) :
    ofQuotient? (Lexeme.digitsValue (Nat.toDigits 10 (units / one) ++ fractionOf units)) (Nat.pow 10 (fractionOf units).length) =
      ofQuotient? units one := by
  obtain ⟨k, hk⟩ := fractionOf_append_zeros units
  have hnumerator : Lexeme.digitsValue (Nat.toDigits 10 (units / one) ++ fractionOf units) * Nat.pow 10 k = units := by
    calc Lexeme.digitsValue (Nat.toDigits 10 (units / one) ++ fractionOf units) * Nat.pow 10 k
        = Lexeme.digitsValue (Nat.toDigits 10 (units / one) ++ placeDigits units) := by
          rw [← hk, ← List.append_assoc, Lexeme.digitsValue_append (_ ++ _), Lexeme.digitsValue_zeros, Nat.add_zero,
            List.length_replicate]
      _ = units / one * Nat.pow 10 places + units % one := by
          rw [Lexeme.digitsValue_append, Lexeme.digitsValue_toDigits, digitsValue_placeDigits, length_placeDigits]
      _ = units := Nat.div_add_mod' units one
  have hdenominator : Nat.pow 10 (fractionOf units).length * Nat.pow 10 k = one := by
    have hlength := congrArg List.length hk
    rw [List.length_append, List.length_replicate, length_placeDigits] at hlength
    rw [one, ← hlength]
    exact (Nat.pow_add ..).symm
  have hnearest := nearest_mul (Lexeme.digitsValue (Nat.toDigits 10 (units / one) ++ fractionOf units))
    (Nat.pow 10 (fractionOf units).length) (pow_positive (b := 10) (by decide) k)
  rw [hnumerator, hdenominator] at hnearest
  rw [ofQuotient?, ofQuotient?, hnearest]

/-- The literal of a finite value with a clear sign bit has that value. -/
theorem numberValue?_literal {x : Binary64} (h : x.IsPlain) : Lexeme.numberValue? x.literal.toList = some x := by
  have hwhole : ∀ c ∈ Nat.toDigits 10 (x.shortestUnits / one), (c != '.') = true := fun c hc => by
    have hdigit := Nat.isDigit_of_mem_toDigits (by decide) (by decide) hc
    exact bne_iff_ne.mpr fun heq => absurd (heq ▸ hdigit) (by decide)
  have hfraction : ¬(fractionOf x.shortestUnits).contains '.' = true := fun hc =>
    absurd (isDigit_of_mem_fractionOf (List.contains_iff_mem.mp hc)) (by decide)
  unfold Lexeme.numberValue?
  rw [literal_toList h, List.takeWhile_append_of_pos hwhole, List.dropWhile_append_of_pos hwhole]
  simp only [List.takeWhile_cons, List.dropWhile_cons, bne_self_eq_false, Bool.false_eq_true, if_false, List.append_nil,
    List.drop_succ_cons, List.drop_zero]
  rw [if_neg hfraction, ofQuotient?_digits, ofQuotient?_shortestUnits h]

end Binary64

end Offside
