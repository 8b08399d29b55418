import Offside.Diagnostic
import Offside.Proofs.Binary64.Overflow
import Offside.Proofs.Token.Join

/-!
# Malformed literals

A run of digits and points is malformed if it has two points or if its value is too large for a finite double. An item of a source
stands for a malformed literal exactly where such a run begins (`TokenStream.ofSource_problem?`).
-/

namespace Offside

namespace Lexeme

/-- A run of digits and points without a value: it has two points, or no finite double is nearest to its value. -/
def IsMalformed (run : List Char) : Prop :=
  2 ≤ run.count '.' ∨
    Binary64.ceiling * Nat.pow 10 ((run.dropWhile (· != '.')).drop 1).length ≤ digitsValue (run.filter (· != '.'))

instance (run : List Char) : Decidable (IsMalformed run) := inferInstanceAs (Decidable (_ ∨ _))

/-- A malformed literal is not empty. -/
theorem not_isMalformed_nil : ¬IsMalformed [] := by
  rintro (hpoints | hvalue)
  · cases hpoints
  · have hpos := Binary64.ceiling_pos
    simp [digitsValue] at hvalue
    omega

/-- The points of a run behind the first one. -/
theorem points_split (run : List Char) :
    let fraction := (run.dropWhile (· != '.')).drop 1
    (2 ≤ run.count '.' ↔ '.' ∈ fraction) ∧
      ('.' ∉ fraction → run.filter (· != '.') = run.takeWhile (· != '.') ++ fraction) := by
  have hsplit := List.takeWhile_append_dropWhile (p := (· != '.')) (l := run)
  have hwhole : ∀ c ∈ run.takeWhile (· != '.'), (c != '.') = true := List.all_eq_true.mp List.all_takeWhile
  have hnone : (run.takeWhile (· != '.')).count '.' = 0 := by
    rw [List.count_eq_zero]
    intro hmem
    cases hwhole '.' hmem
  have hfirst := List.head?_dropWhile_not (· != '.') run
  generalize run.takeWhile (· != '.') = whole at *
  generalize run.dropWhile (· != '.') = rest at *
  subst hsplit
  cases rest with
  | nil => simp [hnone, List.filter_eq_self.mpr hwhole]
  | cons c fraction =>
    obtain rfl : c = '.' := by simpa using hfirst
    dsimp only
    rw [List.drop_succ_cons, List.drop_zero, List.count_append, hnone, List.count_cons_self, List.filter_append,
      List.filter_eq_self.mpr hwhole]
    constructor
    · rw [← List.count_pos_iff]
      omega
    · intro hpoint
      rw [List.filter_cons_of_neg (by simp), List.filter_eq_self.mpr]
      intro c hc
      rw [bne_iff_ne]
      rintro rfl
      exact hpoint hc

/-- The characters of a number have no value exactly if they are malformed. -/
theorem numberValue?_eq_none_iff (run : List Char) : numberValue? run = none ↔ IsMalformed run := by
  obtain ⟨hpoints, hdigits⟩ := points_split run
  unfold numberValue? IsMalformed
  dsimp only
  rw [hpoints]
  by_cases hpoint : '.' ∈ (run.dropWhile (· != '.')).drop 1
  · rw [if_pos (List.contains_iff_mem.mpr hpoint)]
    exact iff_of_true rfl (Or.inl hpoint)
  · rw [if_neg (by rwa [List.contains_iff_mem]), hdigits hpoint,
      Binary64.ofQuotient?_eq_none_iff (Binary64.pow_positive (by decide) _), or_iff_right hpoint]

end Lexeme

/-! ## Where a literal is malformed -/

/-- The diagnostic for a malformed literal. -/
def Place.malformed (place : Place) (literal : String) : Diagnostic := { cause := .malformedNumber literal, place }

/-- What is wrong with an item. -/
def Item.problem? (i : Item) : Option Diagnostic :=
  match i.lexed with
  | .malformed literal => some (i.place.malformed literal)
  | .token _ => none

/-- The digits and points from a position on, if a digit comes first. -/
def Position.numberRun (p : Position) : List Char :=
  if p.ahead.head?.any Char.isDigit then p.ahead.takeWhile fun c => c.isDigit || c == '.' else []

/-- What is wrong with the digits and points at a position. -/
def Position.problem? (p : Position) : Option Diagnostic :=
  if Lexeme.IsMalformed p.numberRun then some (p.place.malformed (String.ofList p.numberRun)) else none

namespace TokenStream

/-- An item stands for the lexeme that begins at its position. -/
theorem exists_first_of_mem (p : Position) :
    ∀ i ∈ (ofPosition p).items, ∃ c after, i.position.ahead = c :: after ∧ i.lexed = (Lexeme.first c after).lexed := by
  induction p using Lexeme.inductAhead with
  | ended p hp =>
    rw [ofPosition_nil hp]
    intro i hi
    cases hi
  | lexeme p c after hp ih =>
    intro i hi
    rw [ofPosition_cons hp] at hi
    dsimp only at hi
    split at hi
    · exact ih i hi
    · rcases List.mem_cons.mp hi with rfl | hi
      · exact ⟨c, after, hp, rfl⟩
      · exact ih i hi

/-- An item is a malformed literal exactly if the digits and points at its position are malformed. -/
theorem ofSource_problem? (source : String) : ∀ i ∈ (ofSource source).items, i.problem? = i.position.problem? := by
  intro i hi
  obtain ⟨c, after, hahead, hlexed⟩ := exists_first_of_mem _ i hi
  unfold Item.problem? Position.problem? Position.numberRun
  rw [hahead, hlexed, List.head?_cons, Option.any_some]
  by_cases hc : c.isDigit = true
  · have hrun : (c :: after).takeWhile (fun d => d.isDigit || d == '.') = c :: after.takeWhile Lexeme.continuesNumber := by
      rw [List.takeWhile_cons, if_pos (by simp [hc])]
      rfl
    rw [if_pos hc, hrun, Lexeme.first, if_neg (by simp [(Lexeme.starts_of_isDigit hc).1]), if_pos (Lexeme.starts_of_isDigit hc).2]
    unfold Lexeme.ofNumber
    cases hvalue : Lexeme.numberValue? (c :: after.takeWhile Lexeme.continuesNumber) with
    | none =>
      rw [if_pos ((Lexeme.numberValue?_eq_none_iff _).mp hvalue)]
      rfl
    | some value =>
      rw [if_neg fun h => by rw [(Lexeme.numberValue?_eq_none_iff _).mpr h] at hvalue; cases hvalue]
      rfl
  · -- no other lexeme is malformed
    obtain ⟨t, ht⟩ : ∃ t, (Lexeme.first c after).lexed = .token t :=
      Lexeme.lexed_cases (P := fun l => ∃ t, l = .token t) c after (fun _ => ⟨_, rfl⟩) (fun hnumber => absurd hnumber hc) ⟨_, rfl⟩
        ⟨_, rfl⟩ ⟨_, rfl⟩ fun _ _ _ _ => ⟨_, rfl⟩
    rw [if_neg hc, if_neg Lexeme.not_isMalformed_nil, ht]

end TokenStream

end Offside
