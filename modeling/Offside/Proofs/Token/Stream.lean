import Offside.Proofs.Binary64.Magnitude
import Offside.Token.Stream

/-!
# What a stream holds

What holds of every lexeme holds of every item of a stream. The names in a stream are spelled like names and not reserved, its numbers
are finite and have no sign, and it holds no end of the input, which is what comes behind the items.
-/

namespace Offside

/-- What a lexeme stands for, by the rule that its first character decides on. -/
theorem Lexeme.lexed_cases {P : Lexed → Prop} (c : Char) (after : List Char)
    (hword : Lexeme.startsName c = true → P (Lexeme.ofWord (c :: after.takeWhile Lexeme.continuesName)).lexed)
    (hnumber : Lexeme.startsNumber c = true → P (Lexeme.ofNumber (c :: after.takeWhile Lexeme.continuesNumber)).lexed)
    (hseparator : P (.token .statementEnd)) (hblank : P (.token .blank)) (hcomment : P (.token .comment))
    (hpunct : Lexeme.startsName c = false → Lexeme.startsNumber c = false → Lexeme.isSeparator c = false →
      Lexeme.isBlank c = false → P (.token (.punct c))) : P (Lexeme.first c after).lexed := by
  unfold Lexeme.first
  split
  · rename_i hc
    exact hword hc
  · split
    · rename_i hc
      exact hnumber hc
    · split
      · exact hseparator
      · split
        · exact hblank
        · rename_i hw hn hs hb
          split
          · exact hcomment
          · exact hpunct (by simpa using hw) (by simpa using hn) (by simpa using hs) (by simpa using hb)

/-- A name of the language: it is spelled like one and not reserved. -/
def isName (name : String) : Bool :=
  match name.toList with
  | [] => false
  | c :: cs => Lexeme.startsName c && cs.all Lexeme.continuesName && (Keyword.ofSpelling? name).isNone

/-- A name begins with a character that starts one, goes on with those that continue it, and is no keyword. -/
theorem isName_cases {name : String} (h : isName name = true) :
    ∃ c cs, name.toList = c :: cs ∧ Lexeme.startsName c = true ∧ (∀ d ∈ cs, Lexeme.continuesName d = true) ∧
      Keyword.ofSpelling? name = none := by
  rw [isName] at h
  split at h
  · cases h
  · rename_i c cs heq
    simp only [Bool.and_eq_true, List.all_eq_true, Option.isNone_iff_eq_none] at h
    exact ⟨c, cs, heq, h.1.1, h.1.2, h.2⟩

/-- What is known of a token of a source. -/
def Token.Spelled : Token → Prop
  | .identifier name => isName name = true
  | .number value => value.IsPlain
  | _ => True

/-- What is known of an item of a stream. -/
def Lexed.Spelled : Lexed → Prop
  | .token t => t.Spelled ∧ t ≠ .endOfInput
  | .malformed _ => True

/-- The longest word at the start of a text is a name or a keyword. -/
theorem Lexeme.ofWord_spelled {c : Char} (h : Lexeme.startsName c = true) (after : List Char) :
    (Lexeme.ofWord (c :: after.takeWhile Lexeme.continuesName)).lexed.Spelled := by
  simp only [ofWord]
  cases hk : Keyword.ofSpelling? (String.ofList (c :: after.takeWhile continuesName)) with
  | none =>
    refine ⟨?_, by simp⟩
    have hall : (after.takeWhile continuesName).all continuesName = true := List.all_takeWhile
    simp only [Option.elim_none, Token.Spelled, isName, String.toList_ofList, hk, h, hall]
    rfl
  | some k => exact ⟨trivial, by simp⟩

/-- A number is a spelled token or a malformed literal. -/
theorem Lexeme.ofNumber_spelled (chars : List Char) : (Lexeme.ofNumber chars).lexed.Spelled := by
  simp only [ofNumber]
  cases hv : numberValue? chars with
  | none => trivial
  | some value =>
    refine ⟨?_, by simp⟩
    simp only [numberValue?] at hv
    split at hv
    · cases hv
    · exact Binary64.isPlain_of_ofQuotient? hv

/-- Whatever the first character is, the item it begins is a spelled one. -/
theorem Lexeme.first_spelled (c : Char) (after : List Char) : (Lexeme.first c after).lexed.Spelled :=
  Lexeme.lexed_cases c after (fun h => ofWord_spelled h after) (fun _ => ofNumber_spelled _) ⟨trivial, by simp⟩
    ⟨trivial, by simp⟩ ⟨trivial, by simp⟩ (fun _ _ _ _ => ⟨trivial, by simp⟩)

namespace TokenStream

/-- What holds of every lexeme holds of every item. -/
theorem forall_scan {P : Lexed → Prop} (h : ∀ c after, P (Lexeme.first c after).lexed) (n : Nat) :
    ∀ p : Position, ∀ i ∈ (scan n p).items, P i.lexed := by
  induction n with
  | zero => intro p i hi; cases hi
  | succ n ih =>
    intro p i hi
    rw [scan] at hi
    split at hi
    · cases hi
    · rename_i c after _
      dsimp only at hi
      split at hi
      · exact ih _ i hi
      · rcases List.mem_cons.mp hi with rfl | hi
        · exact h c after
        · exact ih _ i hi

/-- The items of a source are spelled as they should be. -/
theorem ofSource_spelled (source : String) : ∀ i ∈ (ofSource source).items, i.lexed.Spelled :=
  forall_scan Lexeme.first_spelled _ _

/-- No item is the end of the input. -/
theorem ofSource_ne_endOfInput (source : String) : ∀ i ∈ (ofSource source).items, i.lexed ≠ .token .endOfInput := by
  intro i hi heq
  have hspelled := ofSource_spelled source i hi
  rw [heq] at hspelled
  exact hspelled.2 rfl

/-! ## Calls -/

/-- The item that the stream yields after it has been asked for `n` others. -/
def answer : Nat → TokenStream → Item
  | 0, s => s.next.1
  | n + 1, s => answer n s.next.2

/-- Behind the last item the end of the input is yielded for ever. -/
theorem answer_nil (n : Nat) (p : Position) : (nil p).answer n = { lexed := .token .endOfInput, position := p } := by
  induction n with
  | zero => rfl
  | succ n ih => exact ih

theorem answer_cons_zero (i : Item) (s : TokenStream) : (s.cons i).answer 0 = i := rfl

theorem answer_cons_succ (i : Item) (s : TokenStream) (n : Nat) : (s.cons i).answer (n + 1) = s.answer n := rfl

end TokenStream

end Offside
