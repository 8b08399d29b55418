import Offside.Binary64.Shortest
import Offside.Proofs.Binary64.Magnitude

/-!
# The shape of a literal

The literal of a finite value with a clear sign bit is a row of decimal digits, a point, and another row of decimal digits; they are
those of the shortest decimal of the value.
-/

namespace Offside.Binary64

/-- The shortest decimal of a finite value, in units of `10 ^ (-places)`. -/
def shortestUnits (x : Binary64) : Nat := if x.magnitude = 0 then 0 else x.interval.shortest

/-- The digits behind the point of a literal. There is at least one. -/
def fractionOf (units : Nat) : List Char := if fractionDigits units = [] then ['0'] else fractionDigits units

/-- The places of a fraction are digits. -/
theorem isDigit_of_mem_fractionDigits {units : Nat} {c : Char} (h : c ∈ fractionDigits units) : c.isDigit = true := by
  simp only [fractionDigits, List.mem_reverse] at h
  have hmem := (List.dropWhile_sublist _).subset h
  simp only [List.mem_reverse, List.mem_append, List.mem_replicate] at hmem
  rcases hmem with ⟨_, rfl⟩ | hmem
  · rfl
  · exact Nat.isDigit_of_mem_toDigits (by decide) (by decide) hmem

/-- What is written behind the point are digits, also where it is a single zero. -/
theorem isDigit_of_mem_fractionOf {units : Nat} {c : Char} (h : c ∈ fractionOf units) : c.isDigit = true := by
  rw [fractionOf] at h
  split at h
  · rw [List.mem_singleton.mp h]
    rfl
  · exact isDigit_of_mem_fractionDigits h

/-- There is always something behind the point. -/
theorem fractionOf_ne_nil (units : Nat) : fractionOf units ≠ [] := by
  rw [fractionOf]
  split
  · simp
  · assumption

theorem fractionDigits_zero : fractionDigits 0 = [] := by
  have hdigits : Nat.toDigits 10 (0 % one) = ['0'] := by
    rw [Nat.zero_mod]
    rfl
  rw [fractionDigits, hdigits, ← List.replicate_succ', List.reverse_replicate, List.dropWhile_replicate]
  rfl

/-- The text of a finite value with a clear sign bit is its shortest decimal. -/
theorem text_of_isPlain {x : Binary64} (h : x.IsPlain) : x.text = positional x.shortestUnits := by
  have hfinite : ¬infinity < x.magnitude := by
    have hlt : x.magnitude < infinity := of_decide_eq_true h.1
    omega
  have hzero : positional 0 = "0" := by
    rw [positional, fractionDigits_zero, Nat.zero_div]
    rfl
  rw [text, if_neg hfinite, h.2, if_neg (by simp), magnitudeText, shortestUnits]
  split
  · exact hzero.symm
  · rw [if_pos h.1]

/-- The literal of a finite value with a clear sign bit, digit by digit. -/
theorem literal_toList {x : Binary64} (h : x.IsPlain) :
    x.literal.toList = Nat.toDigits 10 (x.shortestUnits / one) ++ '.' :: fractionOf x.shortestUnits := by
  have hwhole : '.' ∉ Nat.toDigits 10 (x.shortestUnits / one) :=
    fun hc => absurd (Nat.isDigit_of_mem_toDigits (by decide) (by decide) hc) (by decide)
  rw [literal, text_of_isPlain h, positional, fractionOf]
  by_cases hfraction : fractionDigits x.shortestUnits = []
  · simp [hfraction, hwhole]
  · simp [hfraction]

end Offside.Binary64
