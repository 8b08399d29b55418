import Offside.Proofs.Token.Scan

/-!
# Tokens written out

Every row of tokens that a source can hold is the tokens of some source: each token is written as it is spelled, with a blank behind it.
A single blank between each two of them is enough (`TokenStream.ofSource_spaced`), and a number on its own is read back whatever its
value (`TokenStream.ofSource_literal`).
-/

namespace Offside

/-- A reserved word is spelled like a name, and known by its spelling. -/
theorem Keyword.spelling_cases (word : Keyword) :
    ∃ c cs, word.spelling.toList = c :: cs ∧ Lexeme.startsName c = true ∧ (∀ d ∈ cs, Lexeme.continuesName d = true) ∧
      ofSpelling? word.spelling = some word := by
  cases word <;> exact ⟨_, _, rfl, by decide, by decide, by decide⟩

/-- A reserved word with a character behind it that no name goes on with. -/
theorem Scans.keyword (word : Keyword) {rest : List Char} {ts : List Lexed}
    (hrest : ∀ c ∈ rest.head?, Lexeme.continuesName c = false) (h : Scans rest ts) :
    Scans (word.spelling.toList ++ rest) (.token (.keyword word) :: ts) := by
  obtain ⟨c, cs, heq, hc, hcs, hkeyword⟩ := word.spelling_cases
  have hword : String.ofList (c :: cs) = word.spelling := by rw [← heq, String.ofList_toList]
  rw [heq]
  refine token ?_ rfl h
  rw [Lexeme.first, if_pos hc, Lexeme.takeWhile_stop hcs hrest, Lexeme.ofWord, hword, hkeyword]
  rfl

/-- A reserved word with a blank behind it. -/
theorem Spells.keyword (word : Keyword) : Spells (fun _ => True) (word.spelling ++ " ") [.keyword word] := by
  intro rest us _ hrest
  rw [String.toList_append, List.append_assoc]
  exact Scans.keyword word (by rintro c ⟨⟩; decide) (Scans.blank rfl hrest)

namespace Token

/-- How a token is written. Blanks, comments and the end of the input are not. -/
def spelling : Token → String
  | identifier name => name
  | number value => value.literal
  | statementEnd => ";"
  | keyword word => word.spelling
  | punct c => String.singleton c
  | endOfInput | comment | blank => ""

/-- Whether a source can hold a token. -/
def isWritable : Token → Bool
  | identifier name => isName name
  | number value => decide value.IsPlain
  | statementEnd | keyword _ => true
  | punct c => Lexeme.isMark c
  | endOfInput | comment | blank => false

@[simp] theorem isWritable_identifier (name : String) : (identifier name).isWritable = isName name := rfl

@[simp] theorem isWritable_number (value : Binary64) : (number value).isWritable = decide value.IsPlain := rfl

@[simp] theorem isWritable_statementEnd : statementEnd.isWritable = true := rfl

@[simp] theorem isWritable_keyword (word : Keyword) : (keyword word).isWritable = true := rfl

@[simp] theorem isWritable_punct (c : Char) : (punct c).isWritable = Lexeme.isMark c := rfl

/-- What holds of the separator and of all tokens in the lists holds of the joined list. -/
theorem forall_mem_joined {P : Token → Prop} {c : Char} {tss : List (List Token)} (hc : P (.punct c))
    (h : ∀ ts ∈ tss, ∀ t ∈ ts, P t) : ∀ t ∈ joined c tss, P t := by
  cases tss with
  | nil => simp [joined]
  | cons ts tss =>
    intro t ht
    rcases List.mem_append.mp ht with ht | ht
    · exact h ts List.mem_cons_self t ht
    · obtain ⟨us, hus, ht⟩ := List.mem_flatMap.mp ht
      rcases List.mem_cons.mp ht with rfl | ht
      · exact hc
      · exact h us (List.mem_cons_of_mem _ hus) t ht

/-- A source for a row of tokens. -/
def written : List Token → String
  | [] => ""
  | t :: ts => t.spelling ++ (" " ++ written ts)

/-- A token with a blank or nothing behind it. -/
theorem scans_spelling_append {t : Token} (ht : t.isWritable = true) {rest : List Char} {us : List Lexed}
    (hends : ∀ c ∈ rest.head?, c = ' ') (h : Scans rest us) : Scans (t.spelling.toList ++ rest) (.token t :: us) := by
  unfold spelling
  cases t with
  | identifier name => exact .name ht (fun c hc => hends c hc ▸ rfl) h
  | number value => exact .literal (of_decide_eq_true ht) (fun c hc => hends c hc ▸ rfl) h
  | statementEnd => exact .separators ';' [] (by decide) (fun c hc => hends c hc ▸ rfl) h
  | keyword word => exact .keyword word (fun c hc => hends c hc ▸ rfl) h
  | punct c =>
    have htext : (String.singleton c).toList = [c] := by simp
    have hcomment : c = '/' → rest.head? ≠ some '/' := by
      intro _ hslash
      cases hends '/' hslash
    rw [htext]
    exact .punct ht hcomment h
  | endOfInput | comment | blank => cases ht

/-- A token with a blank behind it. -/
theorem scans_spelling {t : Token} (ht : t.isWritable = true) {rest : List Char} {us : List Lexed} (h : Scans rest us) :
    Scans (t.spelling.toList ++ ' ' :: rest) (.token t :: us) :=
  scans_spelling_append ht (by simp) (h.blank rfl)

/-- What is written for tokens holds these tokens. -/
theorem scans_written {ts : List Token} (h : ∀ t ∈ ts, t.isWritable = true) : Scans (written ts).toList (ts.map .token) := by
  induction ts with
  | nil => exact .nil
  | cons t ts ih =>
    have hrest := ih fun u hu => h u (List.mem_cons_of_mem t hu)
    simpa [written] using scans_spelling (h t List.mem_cons_self) hrest

/-! ## Tokens with single blanks between them -/

/-- The tokens as they are spelled, with one blank between each two. -/
def spaced (ts : List Token) : String := " ".intercalate (ts.map spelling)

/-- Between two tokens there is one blank. -/
theorem toList_spaced_cons_cons (t u : Token) (ts : List Token) :
    (spaced (t :: u :: ts)).toList = t.spelling.toList ++ ' ' :: (spaced (u :: ts)).toList := by
  unfold spaced
  rw [List.map_cons, List.map_cons, String.intercalate_cons_cons, ← List.map_cons]
  simp

/-- A single blank is enough to keep two tokens apart. -/
theorem scans_spaced {ts : List Token} (h : ∀ t ∈ ts, t.isWritable = true) : Scans (spaced ts).toList (ts.map .token) := by
  induction ts with
  | nil => exact .nil
  | cons t ts ih =>
    have ht := h t List.mem_cons_self
    have hrest := ih fun u hu => h u (List.mem_cons_of_mem t hu)
    cases ts with
    | nil =>
      have hlast := scans_spelling_append ht (by simp) Scans.nil
      rw [List.append_nil] at hlast
      simpa [spaced] using hlast
    | cons u ts =>
      rw [toList_spaced_cons_cons, List.map_cons]
      exact scans_spelling ht hrest

end Token

namespace TokenStream

/-- A stream yields its items one after the other, and then the end of the input. -/
theorem answer_lexed (n : Nat) (s : TokenStream) : (s.answer n).lexed = (s.items.map (·.lexed)).getD n (.token .endOfInput) := by
  induction n generalizing s with
  | zero =>
    obtain ⟨items, finish, size, hsize⟩ := s
    cases items with
    | nil => rfl
    | cons i is => rfl
  | succ n ih =>
    obtain ⟨items, finish, size, hsize⟩ := s
    unfold answer
    rw [ih]
    cases items with
    | nil => rfl
    | cons i is => rfl

/-- Reading undoes spelling: tokens that are written out with single blanks between them are read back as they are, and then the input
ends. -/
theorem ofSource_spaced {ts : List Token} (h : ∀ t ∈ ts, t.isWritable = true) :
    (ofSource (Token.spaced ts)).items.map (·.lexed) = ts.map .token ∧
      ∀ n, ((ofSource (Token.spaced ts)).answer n).lexed = .token (ts.getD n .endOfInput) := by
  have hitems := (Token.scans_spaced h).ofSource
  refine ⟨hitems, fun n => ?_⟩
  rw [answer_lexed, hitems, List.getD_eq_getElem?_getD, List.getD_eq_getElem?_getD, List.getElem?_map, Option.getD_map]

/-- Tokens that would run into each other without the blanks. The first number is `1.5`, the last the smallest above zero, and the
digit behind the name is one that a name goes on with. -/
theorem ofSource_spaced_neighbours :
    let ts : List Token := [.number ⟨0x3FF8000000000000⟩, .punct '.', .punct '/', .punct '/', .identifier "x", .punct '٣',
      .keyword .else_, .identifier "else1", .statementEnd, .statementEnd, .punct '=', .punct '=', .number ⟨1⟩]
    (∀ t ∈ ts, t.isWritable = true) ∧ (ofSource (Token.spaced ts)).items.map (·.lexed) = ts.map .token := by
  intro ts
  have hwritable : ∀ t ∈ ts, t.isWritable = true := by decide +kernel
  exact ⟨hwritable, (ofSource_spaced hwritable).1⟩

/-! ## Number literals -/

/-- The literal of a finite value with a clear sign bit is a row of digits, a point and a row of digits. It is read as one number, which
has the bits of the value, and then the input ends. -/
theorem ofSource_literal {x : Binary64} (h : x.IsPlain) :
    (∃ whole fraction, x.literal.toList = whole ++ '.' :: fraction ∧ whole ≠ [] ∧ fraction ≠ [] ∧
        ∀ c ∈ whole ++ fraction, c.isDigit = true) ∧
      (ofSource x.literal).items.map (·.lexed) = [.token (.number x)] ∧
      ∀ n, ((ofSource x.literal).answer n).lexed = .token ([.number x].getD n .endOfInput) := by
  have hitems : (ofSource x.literal).items.map (·.lexed) = [.token (.number x)] := by
    have hscans := Scans.literal h (by simp) .nil
    rw [List.append_nil] at hscans
    exact hscans.ofSource
  refine ⟨⟨_, _, Binary64.literal_toList h, Nat.toDigits_ne_nil, Binary64.fractionOf_ne_nil _, fun c hc => ?_⟩, hitems, fun n => ?_⟩
  · rcases List.mem_append.mp hc with hc | hc
    · exact Nat.isDigit_of_mem_toDigits (by decide) (by decide) hc
    · exact Binary64.isDigit_of_mem_fractionOf hc
  · rw [answer_lexed, hitems]
    cases n <;> rfl

/-- The smallest value above zero, with 324 digits behind the point, and the largest finite one, with 309 in front of it. -/
theorem ofSource_literal_extremes :
    let least : Binary64 := ⟨1⟩
    let largest : Binary64 := ⟨0x7FEFFFFFFFFFFFFF⟩
    (least.IsPlain ∧ (ofSource least.literal).items.map (·.lexed) = [.token (.number least)]) ∧
      largest.IsPlain ∧ (ofSource largest.literal).items.map (·.lexed) = [.token (.number largest)] := by
  intro least largest
  have hleast : least.IsPlain := by decide
  have hlargest : largest.IsPlain := by decide
  exact ⟨⟨hleast, (ofSource_literal hleast).2.1⟩, hlargest, (ofSource_literal hlargest).2.1⟩

end TokenStream

end Offside
