import Offside.Proofs.Token.Join

/-!
# The longest lexeme

The rules for lexemes are stated here one by one, each as the texts that it accepts, whatever the others accept. A lexeme at the start
of a text is one that no rule can make longer; the rule that accepts it says what it stands for, where reserved words come before names
and a character stands for itself only if nothing else begins with it.

Main statement: a source is cut into such lexemes without a gap. Its items are those that are neither blanks nor comments, each at the
place where its lexeme begins, and behind the last of them the end of the input is found for ever.
-/

namespace Offside

/-- The rules for lexemes. -/
inductive Rule where
  | name
  | number
  | separator
  | blank
  | comment
  | keyword (word : Keyword)
  | punct
deriving DecidableEq, Repr

namespace Rule

/-- Whether a text is a character of one class and any number of characters of another. -/
def run (begins continues : Char → Bool) : List Char → Bool
  | [] => false
  | c :: cs => begins c && cs.all continues

/-- Whether a text is two strokes with characters of one line behind them. -/
def strokes : List Char → Bool
  | '/' :: '/' :: cs => cs.all fun c => c != '\r' && c != '\n'
  | _ => false

/-- Whether a text is a single character other than a line feed. -/
def single : List Char → Bool
  | [c] => c != '\n'
  | _ => false

/-- Whether a rule accepts a text. -/
def accepts : Rule → List Char → Bool
  | name => run (fun c => c == '_' || Text.isLetter c) fun c => c == '_' || Text.isLetter c || Text.isNumeral c
  | number => run Char.isDigit fun c => c.isDigit || c == '.'
  | separator => run (['\r', '\n', ';'].contains ·) (['\r', '\n', ';'].contains ·)
  | blank => run ([' ', '\t', '\x0b', '\x0c'].contains ·) ([' ', '\t', '\x0b', '\x0c'].contains ·)
  | comment => strokes
  | keyword word => (· == word.spelling.toList)
  | punct => single

end Rule

namespace Lexeme

/-- What the characters of a lexeme at the start of a text stand for. -/
def Denotes (chars text : List Char) : Lexed → Prop
  | .token (.keyword word) => Rule.accepts (.keyword word) chars = true
  | .token (.identifier name) =>
    Rule.accepts .name chars = true ∧ name = String.ofList chars ∧ ∀ word, Rule.accepts (.keyword word) chars = false
  | .token (.number value) => Rule.accepts .number chars = true ∧ numberValue? chars = some value
  | .malformed literal => Rule.accepts .number chars = true ∧ literal = String.ofList chars ∧ numberValue? chars = none
  | .token .statementEnd => Rule.accepts .separator chars = true
  | .token .blank => Rule.accepts .blank chars = true
  | .token .comment => Rule.accepts .comment chars = true
  | .token (.punct c) => chars = [c] ∧ ∀ rule : Rule, rule ≠ .punct → ∀ piece, piece <+: text → rule.accepts piece = false
  | .token .endOfInput => False

/-- A lexeme is the longest one at the start of a text. -/
structure Leads (l : Lexeme) (text : List Char) : Prop where
  begins : l.chars <+: text
  accepted : ∃ rule : Rule, rule.accepts l.chars = true
  longest : ∀ (rule : Rule) (piece : List Char), piece <+: text → rule.accepts piece = true → piece.length ≤ l.chars.length
  denotes : Denotes l.chars text l.lexed

end Lexeme

namespace Rule

open Lexeme

/-! ## Texts that the rules accept -/

variable {begins continues : Char → Bool} {c : Char} {after piece : List Char}

/-- The longest text with characters of a class behind the first. -/
theorem run_takeWhile (h : begins c = true) : run begins continues (c :: after.takeWhile continues) = true := by
  rw [run, h, Bool.true_and]
  exact List.all_takeWhile

/-- A run of characters at the start of a text is no longer than the greedy one. -/
theorem length_le_run (h : run begins continues piece = true) (hp : piece <+: c :: after) :
    begins c = true ∧ piece.length ≤ (c :: after.takeWhile continues).length := by
  cases piece with
  | nil => cases h
  | cons d ds =>
    obtain ⟨rfl, rest, rfl⟩ := List.cons_prefix_cons.mp hp
    obtain ⟨hd, hds⟩ := Bool.and_eq_true_iff.mp h
    rw [List.takeWhile_append_of_pos (List.all_eq_true.mp hds)]
    exact ⟨hd, by simp⟩

theorem accepts_name : accepts name = run startsName continuesName := rfl

theorem accepts_number : accepts number = run startsNumber continuesNumber := rfl

/-- The rule for separators accepts the runs of the characters that make one. -/
theorem accepts_separator : accepts separator = run isSeparator isSeparator := by
  have hclass : (['\r', '\n', ';'].contains ·) = isSeparator := by
    funext c
    simp only [isSeparator, isTerminator, List.contains_cons, List.contains_nil, Bool.or_false]
    rw [← Bool.or_assoc, Bool.or_comm (c == '\r')]
  unfold accepts
  rw [hclass]

/-- The rule for blanks accepts the runs of the characters that make one. -/
theorem accepts_blank : accepts blank = run isBlank isBlank := by
  have hclass : ([' ', '\t', '\x0b', '\x0c'].contains ·) = isBlank := by
    funext c
    simp only [isBlank, List.contains_cons, List.contains_nil, Bool.or_false, Bool.or_assoc]
  unfold accepts
  rw [hclass]

/-- The rule for comments accepts whatever stands behind two strokes on one line. -/
theorem accepts_comment_cons (cs : List Char) : accepts comment ('/' :: '/' :: cs) = cs.all fun c => !isTerminator c := by
  have hclass : (fun c => c != '\r' && c != '\n') = fun c => !isTerminator c := by
    funext c
    unfold isTerminator
    rw [Bool.not_or, Bool.and_comm]
    rfl
  show cs.all (fun c => c != '\r' && c != '\n') = _
  rw [hclass]

/-- A comment begins with two strokes. -/
theorem exists_of_accepts_comment (h : accepts comment piece = true) : ∃ cs, piece = '/' :: '/' :: cs := by
  have hstrokes : strokes piece = true := h
  unfold strokes at hstrokes
  split at hstrokes
  · exact ⟨_, rfl⟩
  · cases hstrokes

/-- A character that stands for itself is the only one of its lexeme. -/
theorem length_of_accepts_punct (h : accepts punct piece = true) : piece.length = 1 := by
  have hsingle : single piece = true := h
  unfold single at hsingle
  split at hsingle
  · rfl
  · cases hsingle

/-- Reserved words are spelled like names. -/
theorem name_accepts_keyword {word : Keyword} (h : accepts (keyword word) piece = true) : accepts name piece = true := by
  rw [eq_of_beq h]
  cases word <;> decide

end Rule

namespace Lexeme

/-! ## The rule that a lexeme follows -/

section

variable {c : Char} (after : List Char)

/-- A character that starts a name begins the longest word there. -/
theorem first_name (h : startsName c = true) : first c after = ofWord (c :: after.takeWhile continuesName) := by
  rw [first, if_pos h]

/-- A digit begins the longest run of digits and points there. -/
theorem first_number (h : startsNumber c = true) : first c after = ofNumber (c :: after.takeWhile continuesNumber) := by
  have hname : startsName c = false := (starts_of_isDigit h).1
  rw [first, hname, if_neg (by simp), if_pos h]

/-- Two strokes begin a comment up to the end of the line. -/
theorem first_comment : first '/' ('/' :: after) = ⟨'/' :: '/' :: after.takeWhile fun d => !isTerminator d, .token .comment⟩ := by
  rfl

end

/-- No rule accepts a longer text. -/
theorem length_le_first {c : Char} {after piece : List Char} (hp : piece <+: c :: after) {rule : Rule} (h : rule.accepts piece = true) :
    piece.length ≤ (first c after).chars.length := by
  have hname : Rule.accepts .name piece = true → piece.length ≤ (first c after).chars.length := by
    intro h
    obtain ⟨hc, hle⟩ := Rule.length_le_run (Rule.accepts_name ▸ h) hp
    rwa [first_name after hc]
  cases rule with
  | name => exact hname h
  | keyword word => exact hname (Rule.name_accepts_keyword h)
  | number =>
    obtain ⟨hc, hle⟩ := Rule.length_le_run (Rule.accepts_number ▸ h) hp
    rwa [first_number after hc]
  | separator =>
    obtain ⟨hc, hle⟩ := Rule.length_le_run (Rule.accepts_separator ▸ h) hp
    rwa [first_separator hc]
  | blank =>
    obtain ⟨hc, hle⟩ := Rule.length_le_run (Rule.accepts_blank ▸ h) hp
    rwa [first_blank hc]
  | comment =>
    obtain ⟨cs, rfl⟩ := Rule.exists_of_accepts_comment h
    obtain ⟨rfl, rest, rfl⟩ := List.cons_prefix_cons.mp hp
    rw [Rule.accepts_comment_cons] at h
    rw [List.cons_append, first_comment, List.takeWhile_append_of_pos (List.all_eq_true.mp h)]
    simp
  | punct =>
    rw [Rule.length_of_accepts_punct h]
    exact length_first_pos c after

/-- The longest word at the start of a text is a reserved word or a name. -/
theorem ofWord_denotes {chars text : List Char} (h : Rule.accepts .name chars = true) : Denotes chars text (ofWord chars).lexed := by
  unfold ofWord
  dsimp only
  cases hk : Keyword.ofSpelling? (String.ofList chars) with
  | none =>
    refine ⟨h, rfl, fun word => ?_⟩
    have hword := List.find?_eq_none.mp hk word (by cases word <;> decide)
    rw [Rule.accepts, beq_eq_false_iff_ne]
    rintro rfl
    exact hword (by simp)
  | some word =>
    unfold Keyword.ofSpelling? at hk
    have hword : word.spelling = String.ofList chars := by simpa using List.find?_some hk
    show (chars == word.spelling.toList) = true
    rw [hword, String.toList_ofList, beq_self_eq_true]

/-- The longest row of digits and points at the start of a text has a value or is malformed. -/
theorem ofNumber_denotes {chars text : List Char} (h : Rule.accepts .number chars = true) :
    Denotes chars text (ofNumber chars).lexed := by
  unfold ofNumber
  dsimp only
  cases hv : numberValue? chars with
  | none => exact ⟨h, rfl, hv⟩
  | some value => exact ⟨h, hv⟩

/-- Where no other rule accepts a piece a character stands for itself. -/
theorem punct_denotes {c : Char} {after : List Char} (hname : startsName c = false) (hnumber : startsNumber c = false)
    (hseparator : isSeparator c = false) (hblank : isBlank c = false) (hcomment : c = '/' → after.head? ≠ some '/') :
    Denotes [c] (c :: after) (.token (.punct c)) := by
  refine ⟨rfl, fun rule hrule piece hp => ?_⟩
  have hrun : ∀ {begins continues : Char → Bool}, begins c = false → Rule.run begins continues piece = false := by
    intro begins continues hc
    cases h : Rule.run begins continues piece with
    | false => rfl
    | true => rw [(Rule.length_le_run h hp).1] at hc; cases hc
  cases rule with
  | name => exact hrun hname
  | number => exact hrun hnumber
  | separator => rw [Rule.accepts_separator]; exact hrun hseparator
  | blank => rw [Rule.accepts_blank]; exact hrun hblank
  | comment =>
    cases h : Rule.accepts .comment piece with
    | false => rfl
    | true =>
      obtain ⟨cs, rfl⟩ := Rule.exists_of_accepts_comment h
      obtain ⟨rfl, rest, rfl⟩ := List.cons_prefix_cons.mp hp
      exact absurd rfl (hcomment rfl)
  | keyword word =>
    cases h : Rule.accepts (.keyword word) piece with
    | false => rfl
    | true =>
      have hnone : Rule.accepts .name piece = false := hrun hname
      rw [Rule.name_accepts_keyword h] at hnone
      cases hnone
  | punct => exact absurd rfl hrule

/-- What a lexeme stands for is said by the rule that accepts it. -/
theorem first_denotes (c : Char) (after : List Char) :
    (∃ rule : Rule, rule.accepts (first c after).chars = true) ∧ Denotes (first c after).chars (c :: after) (first c after).lexed := by
  by_cases hname : startsName c = true
  · have h : Rule.accepts .name (c :: after.takeWhile continuesName) = true := Rule.run_takeWhile hname
    rw [first_name after hname]
    exact ⟨⟨_, h⟩, ofWord_denotes h⟩
  by_cases hnumber : startsNumber c = true
  · have h : Rule.accepts .number (c :: after.takeWhile continuesNumber) = true := Rule.run_takeWhile hnumber
    rw [first_number after hnumber]
    exact ⟨⟨_, h⟩, ofNumber_denotes h⟩
  by_cases hseparator : isSeparator c = true
  · have h : Rule.accepts .separator (c :: after.takeWhile isSeparator) = true := Rule.accepts_separator ▸ Rule.run_takeWhile hseparator
    rw [first_separator hseparator]
    exact ⟨⟨_, h⟩, h⟩
  by_cases hblank : isBlank c = true
  · have h : Rule.accepts .blank (c :: after.takeWhile isBlank) = true := Rule.accepts_blank ▸ Rule.run_takeWhile hblank
    rw [first_blank hblank]
    exact ⟨⟨_, h⟩, h⟩
  by_cases hcomment : c = '/' ∧ after.head? = some '/'
  · obtain ⟨rfl, hhead⟩ := hcomment
    obtain ⟨rest, rfl⟩ := List.head?_eq_some_iff.mp hhead
    have h : Rule.accepts .comment ('/' :: '/' :: rest.takeWhile fun d => !isTerminator d) = true :=
      (Rule.accepts_comment_cons _).trans List.all_takeWhile
    rw [first_comment]
    exact ⟨⟨_, h⟩, h⟩
  rw [Bool.not_eq_true] at hname hnumber hseparator hblank
  have hfirst : first c after = ⟨[c], .token (.punct c)⟩ := by
    unfold first
    rw [hname, hnumber, hseparator, hblank]
    simpa using hcomment
  have hfeed : c ≠ '\n' := by
    rintro rfl
    cases hseparator
  rw [hfirst]
  exact ⟨⟨.punct, bne_iff_ne.mpr hfeed⟩, punct_denotes hname hnumber hseparator hblank fun hc hhead => hcomment ⟨hc, hhead⟩⟩

/-- The longest lexeme at the start of a text. -/
theorem first_leads (c : Char) (after : List Char) : (first c after).Leads (c :: after) where
  begins := by
    rw [← take_first c after]
    exact List.take_prefix _ _
  accepted := (first_denotes c after).1
  longest _ _ hp h := length_le_first hp h
  denotes := (first_denotes c after).2

/-- Only blanks and comments are dropped. -/
theorem Leads.trivia {l : Lexeme} {text : List Char} (h : l.Leads text) (hl : l.isTrivia = true) :
    Rule.accepts .blank l.chars = true ∨ Rule.accepts .comment l.chars = true := by
  have hdenotes := h.denotes
  unfold isTrivia at hl
  split at hl
  · rename_i t ht
    rw [ht] at hdenotes
    cases t with
    | blank => exact Or.inl hdenotes
    | comment => exact Or.inr hdenotes
    | _ => cases hl
  · cases hl

/-- Whether a lexeme is yielded as an item. -/
def isItem (l : Lexeme) : Bool := !l.isTrivia

/-- The text that lexemes make up. -/
def textOf (lexemes : List Lexeme) : List Char := lexemes.flatMap (·.chars)

end Lexeme

namespace TokenStream

open Lexeme

/-- A text is cut into lexemes, and a stream yields those of them that are not dropped. -/
structure Tiles (lexemes : List Lexeme) (text : List Char) (s : TokenStream) : Prop where
  /-- There is no gap between the lexemes. -/
  covers : textOf lexemes = text
  /-- Each of them is the longest one at its place. -/
  leads {front : List Lexeme} {l : Lexeme} {rest : List Lexeme} : lexemes = front ++ l :: rest → l.Leads (l.chars ++ textOf rest)
  /-- What is dropped are runs of blanks, and comments. -/
  dropped {l : Lexeme} : l ∈ lexemes → l.isItem = false → Rule.accepts .blank l.chars = true ∨ Rule.accepts .comment l.chars = true
  /-- What is not dropped is yielded in order, each at the place where its lexeme begins. -/
  yields {front : List Lexeme} {l : Lexeme} {rest : List Lexeme} : lexemes = front ++ l :: rest → l.isItem = true →
    (s.answer (front.countP isItem)).lexed = l.lexed ∧ (s.answer (front.countP isItem)).position.ahead = l.chars ++ textOf rest
  /-- Then the end of the input is yielded, at the end of the text. -/
  ends {n : Nat} : lexemes.countP isItem ≤ n → (s.answer n).lexed = .token .endOfInput ∧ (s.answer n).position.ahead = []

/-- One more lexeme in front: a stream that yields it, if it is not dropped, and then goes on as another. -/
theorem Tiles.cons {l : Lexeme} {ls : List Lexeme} {p : Position} {rest : List Char} {s t : TokenStream}
    (hp : p.ahead = l.chars ++ rest) (hl : l.Leads p.ahead) (here : l.isItem = true → t.answer 0 = { lexed := l.lexed, position := p })
    (later : ∀ n, t.answer ([l].countP isItem + n) = s.answer n) (h : Tiles ls rest s) : Tiles (l :: ls) p.ahead t where
  covers := by
    rw [hp, ← h.covers]
    rfl
  leads {front l' rest'} heq := by
    cases front with
    | nil =>
      obtain ⟨rfl, rfl⟩ := List.cons.inj heq
      rwa [h.covers, ← hp]
    | cons f front => exact h.leads (List.cons.inj heq).2
  dropped {l'} hmem hitem := by
    rcases List.mem_cons.mp hmem with rfl | hmem
    · exact hl.trivia (by simpa only [isItem, Bool.not_eq_false'] using hitem)
    · exact h.dropped hmem hitem
  yields {front l' rest'} heq hitem := by
    cases front with
    | nil =>
      obtain ⟨rfl, rfl⟩ := List.cons.inj heq
      rw [List.countP_nil, here hitem, h.covers]
      exact ⟨rfl, hp⟩
    | cons f front =>
      obtain ⟨rfl, rfl⟩ := List.cons.inj heq
      rw [← List.singleton_append, List.countP_append, later]
      exact h.yields rfl hitem
  ends {n} hn := by
    rw [← List.singleton_append, List.countP_append] at hn
    obtain ⟨m, rfl⟩ := Nat.exists_eq_add_of_le (Nat.le_of_add_right_le hn)
    rw [later]
    exact h.ends (Nat.le_of_add_le_add_left hn)

/-- The stream behind a position is cut into the longest lexemes. -/
theorem exists_tiles (p : Position) : ∃ lexemes, Tiles lexemes p.ahead (ofPosition p) := by
  induction p using inductAhead with
  | ended p hp =>
    rw [hp, ofPosition_nil hp]
    exact ⟨[], rfl, by simp, by simp, by simp, fun {n} _ => by rw [answer_nil]; exact ⟨rfl, hp⟩⟩
  | lexeme p c after hp ih =>
    obtain ⟨ls, hls⟩ := ih
    refine ⟨first c after :: ls, hls.cons (first_append_skip hp) (hp ▸ first_leads c after) ?_ ?_⟩
    · intro hitem
      have htrivia : (first c after).isTrivia = false := by simpa only [isItem, Bool.not_eq_true'] using hitem
      rw [ofPosition_cons hp, htrivia, if_neg (by simp), answer_cons_zero]
    · intro n
      rw [ofPosition_cons hp, List.countP_singleton, isItem]
      cases (first c after).isTrivia with
      | true => simp
      | false => simp [answer_cons_succ, Nat.add_comm 1]

/-- A source is cut into lexemes without a gap, each the longest that any rule accepts at its place. Blanks and comments are dropped,
the others are yielded one by one, and then the end of the input for ever. -/
theorem ofSource_tiles (source : String) : ∃ lexemes, Tiles lexemes source.toList (ofSource source) :=
  exists_tiles (.start source)

end TokenStream

end Offside
