import Offside.Proofs.Token.Number
import Offside.Proofs.Token.Stream

/-!
# Text with known tokens

`Scans cs ts` says that a text holds the tokens `ts`, whatever position it stands at. `Spells K text ts` says so of a piece of text,
whatever follows it that satisfies `K`. Names and literals spell one token each if something that ends a word follows; single
characters and blanks may be followed by anything. Texts made of such pieces spell the tokens of the pieces one after another.
-/

namespace Offside

/-- One step leaves the characters behind the first. -/
theorem Position.ahead_next (p : Position) : p.next.ahead = p.ahead.drop 1 := by
  unfold Position.next
  cases hp : p.ahead with
  | nil => simp [hp]
  | cons c after => rfl

/-- A number of steps leaves as many characters fewer. -/
theorem Position.ahead_skip (n : Nat) (p : Position) : (p.skip n).ahead = p.ahead.drop n := by
  induction n generalizing p with
  | zero => rfl
  | succ n ih => rw [skip, ih, ahead_next, List.drop_drop, Nat.add_comm]

namespace Lexeme

/-- What a lexeme and those behind it stand for, without what is dropped. -/
def before (l : Lexeme) (ts : List Lexed) : List Lexed := if l.isTrivia then ts else l.lexed :: ts

/-- A lexeme that is neither blank nor comment is yielded. -/
theorem before_token {t : Token} (ht : t.isTrivia = false) (chars : List Char) (ts : List Lexed) :
    (Lexeme.mk chars (.token t)).before ts = .token t :: ts := by
  simp [before, isTrivia, ht]

theorem before_blank (chars : List Char) (ts : List Lexed) : (Lexeme.mk chars (.token .blank)).before ts = ts := rfl

/-- A lexeme has at least one character. -/
theorem length_first_pos (c : Char) (after : List Char) : 0 < (first c after).chars.length := by
  unfold first ofWord ofNumber
  split
  · simp
  · split
    · simp
    · split
      · simp
      · split
        · simp
        · split <;> simp

end Lexeme

/-- A text is cut into lexemes, and `ts` is what they stand for. -/
inductive Scans : List Char → List Lexed → Prop where
  | nil : Scans [] []
  | lexeme {c : Char} {after : List Char} {ts : List Lexed} :
      Scans ((c :: after).drop (Lexeme.first c after).chars.length) ts → Scans (c :: after) ((Lexeme.first c after).before ts)

/-- The stream of a text holds what the text is cut into. -/
theorem Scans.items {cs : List Char} {ts : List Lexed} (h : Scans cs ts) :
    ∀ {n : Nat} {p : Position}, p.ahead = cs → cs.length ≤ n → (TokenStream.scan n p).items.map (·.lexed) = ts := by
  induction h with
  | nil =>
    intro n p hp _
    cases n with
    | zero => rfl
    | succ n =>
      rw [TokenStream.scan]
      simp [hp, TokenStream.nil]
  | @lexeme c after ts _ ih =>
    intro n p hp hn
    have hpos := Lexeme.length_first_pos c after
    cases n with
    | zero => simp at hn
    | succ n =>
      have hrest := ih (n := n) (p := p.skip (Lexeme.first c after).chars.length) (by rw [Position.ahead_skip, hp])
        (by rw [List.length_drop]; omega)
      rw [TokenStream.scan, hp, Lexeme.before]
      dsimp only
      split
      · exact hrest
      · rw [← hrest]
        rfl

/-- What the characters of a source are scanned as are the items of its stream. -/
theorem Scans.ofSource {source : String} {ts : List Lexed} (h : Scans source.toList ts) :
    (TokenStream.ofSource source).items.map (·.lexed) = ts :=
  h.items rfl (Nat.le_refl _)

namespace Lexeme

/-- A run of characters stops in front of the first one that does not belong to it. -/
theorem takeWhile_stop {p : Char → Bool} {cs rest : List Char} (hcs : ∀ c ∈ cs, p c = true)
    (hrest : ∀ c ∈ rest.head?, p c = false) : (cs ++ rest).takeWhile p = cs := by
  rw [List.takeWhile_append_of_pos hcs]
  cases rest with
  | nil => simp
  | cons c rest => simp [hrest c rfl]

/-- Whether a character stands for itself, unless it begins a comment. -/
def isMark (c : Char) : Bool := !startsName c && !startsNumber c && !isSeparator c && !isBlank c

/-- A digit begins a number, and no name. -/
theorem starts_of_isDigit {c : Char} (h : c.isDigit = true) : startsName c = false ∧ startsNumber c = true := by
  have hdigits : ∀ k : Fin 10, startsName (Char.ofNat (48 + k)) = false ∧ startsNumber (Char.ofNat (48 + k)) = true := by decide
  have hrange : 48 ≤ c.toNat ∧ c.toNat ≤ 57 := by
    simpa [Char.isDigit, UInt32.le_iff_toNat_le] using h
  have hc := hdigits ⟨c.toNat - 48, by omega⟩
  simp only [Nat.add_sub_cancel' hrange.1, Char.ofNat_toNat] at hc
  exact hc

/-- A blank begins the longest run of blanks there. -/
theorem first_blank {c : Char} (h : isBlank c = true) (after : List Char) :
    first c after = ⟨c :: after.takeWhile isBlank, .token .blank⟩ := by
  have hstarts : startsName c = false ∧ startsNumber c = false ∧ isSeparator c = false := by
    simp only [isBlank, Bool.or_eq_true, beq_iff_eq] at h
    rcases h with ((rfl | rfl) | rfl) | rfl <;> decide
  simp [first, hstarts, h]

/-- A separator begins the longest run of separators there. -/
theorem first_separator {c : Char} (h : isSeparator c = true) (after : List Char) :
    first c after = ⟨c :: after.takeWhile isSeparator, .token .statementEnd⟩ := by
  have hstarts : startsName c = false ∧ startsNumber c = false := by
    simp only [isSeparator, isTerminator, Bool.or_eq_true, beq_iff_eq] at h
    rcases h with (rfl | rfl) | rfl <;> decide
  simp [first, hstarts, h]

end Lexeme

namespace Scans

variable {rest : List Char} {ts : List Lexed}

/-- A token is what the longest lexeme at the start of a text stands for. -/
theorem token {c : Char} {cs : List Char} {t : Token} (hfirst : Lexeme.first c (cs ++ rest) = ⟨c :: cs, .token t⟩)
    (ht : t.isTrivia = false) (h : Scans rest ts) : Scans (c :: cs ++ rest) (.token t :: ts) := by
  have hscans := @Scans.lexeme c (cs ++ rest) ts
  rw [hfirst, Lexeme.before_token ht] at hscans
  exact hscans (by simpa using h)

/-- A name with a character behind it that no name goes on with. -/
theorem name {name : String} (hname : isName name = true) (hrest : ∀ c ∈ rest.head?, Lexeme.continuesName c = false)
    (h : Scans rest ts) : Scans (name.toList ++ rest) (.token (.identifier name) :: ts) := by
  obtain ⟨c, cs, heq, hc, hcs, hkeyword⟩ := isName_cases hname
  have hword : String.ofList (c :: cs) = name := by rw [← heq, String.ofList_toList]
  rw [heq]
  refine token ?_ rfl h
  rw [Lexeme.first, if_pos hc, Lexeme.takeWhile_stop hcs hrest, Lexeme.ofWord, hword, hkeyword]
  rfl

/-- The literal of a value with a character behind it that no number goes on with. -/
theorem literal {x : Binary64} (hx : x.IsPlain) (hrest : ∀ c ∈ rest.head?, Lexeme.continuesNumber c = false)
    (h : Scans rest ts) : Scans (x.literal.toList ++ rest) (.token (.number x) :: ts) := by
  have hvalue := Binary64.numberValue?_literal hx
  have heq := Binary64.literal_toList hx
  obtain ⟨c, cs, hwhole⟩ := List.exists_cons_of_ne_nil (Nat.toDigits_ne_nil (b := 10) (n := x.shortestUnits / Binary64.one))
  have hdigit : ∀ d ∈ c :: cs, d.isDigit = true := fun d hd =>
    Nat.isDigit_of_mem_toDigits (by decide) (by decide) (hwhole ▸ hd)
  have hgoes : ∀ d ∈ cs ++ '.' :: Binary64.fractionOf x.shortestUnits, Lexeme.continuesNumber d = true := by
    intro d hd
    rw [Lexeme.continuesNumber]
    rcases List.mem_append.mp hd with hd | hd
    · simp [Lexeme.starts_of_isDigit (hdigit d (List.mem_cons_of_mem _ hd))]
    · rcases List.mem_cons.mp hd with rfl | hd
      · rfl
      · simp [Lexeme.starts_of_isDigit (Binary64.isDigit_of_mem_fractionOf hd)]
  have hstarts := Lexeme.starts_of_isDigit (hdigit c List.mem_cons_self)
  rw [hwhole, List.cons_append] at heq
  rw [heq] at hvalue ⊢
  refine token ?_ rfl h
  rw [Lexeme.first, hstarts.1, hstarts.2, if_neg (by simp), if_pos rfl, Lexeme.takeWhile_stop hgoes hrest, Lexeme.ofNumber,
    hvalue]
  rfl

/-- A character that stands for itself. -/
theorem punct {c : Char} (hc : Lexeme.isMark c = true) (hcomment : c = '/' → rest.head? ≠ some '/') (h : Scans rest ts) :
    Scans (c :: rest) (.token (.punct c) :: ts) := by
  simp only [Lexeme.isMark, Bool.and_eq_true, Bool.not_eq_true'] at hc
  obtain ⟨⟨⟨hname, hnumber⟩, hseparator⟩, hblank⟩ := hc
  have hslash : ¬(c == '/' && rest.head? == some '/') = true := by simpa using hcomment
  have hfirst : Lexeme.first c ([] ++ rest) = ⟨[c], .token (.punct c)⟩ := by
    rw [List.nil_append, Lexeme.first, hname, hnumber, hseparator, hblank, if_neg hslash]
    rfl
  exact token hfirst rfl h

/-- A blank may be followed by anything: what is a blank too joins it. -/
theorem blank {c : Char} (hc : Lexeme.isBlank c = true) (h : Scans rest ts) : Scans (c :: rest) ts := by
  have hscans := @Scans.lexeme c rest ts
  rw [Lexeme.first_blank hc, Lexeme.before_blank] at hscans
  cases h with
  | nil => exact hscans .nil
  | @lexeme d after ts h =>
    by_cases hd : Lexeme.isBlank d = true
    · rw [Lexeme.first_blank hd, Lexeme.before_blank] at hscans ⊢
      rw [Lexeme.first_blank hd] at h
      exact hscans (by simpa [hd] using h)
    · exact hscans (by simpa [hd] using Scans.lexeme h)

/-- Where a text begins with a token other than a separator, its first character is none. -/
theorem head_of_token {cs : List Char} {t : Token} (h : Scans cs (.token t :: ts)) (ht : t ≠ .statementEnd) :
    ∀ c ∈ cs.head?, Lexeme.isSeparator c = false := by
  intro c hc
  by_cases hsep : Lexeme.isSeparator c = true
  · generalize hus : Lexed.token t :: ts = us at h
    cases h with
    | nil => cases hc
    | lexeme =>
      cases hc
      rw [Lexeme.first_separator hsep, Lexeme.before_token rfl] at hus
      cases hus
      exact absurd rfl ht
  · simpa using hsep

/-- A run of separators. -/
theorem separators (c : Char) (cs : List Char) (hcs : ∀ d ∈ c :: cs, Lexeme.isSeparator d = true)
    (hrest : ∀ d ∈ rest.head?, Lexeme.isSeparator d = false) (h : Scans rest ts) :
    Scans (c :: cs ++ rest) (.token .statementEnd :: ts) := by
  refine token ?_ rfl h
  rw [Lexeme.first_separator (hcs c List.mem_cons_self),
    Lexeme.takeWhile_stop (fun d hd => hcs d (List.mem_cons_of_mem _ hd)) hrest]

end Scans

/-! ## Pieces of text -/

/-- Rows of tokens with a character between each two. -/
def Token.joined (c : Char) : List (List Token) → List Token
  | [] => []
  | ts :: rest => ts ++ rest.flatMap (.punct c :: ·)

/-- Whether no word goes on with the beginning of a text. -/
def endsWord (cs : List Char) : Bool := cs.head?.all fun c => !Lexeme.continuesName c && !Lexeme.continuesNumber c

/-- A piece of text holds the tokens `ts`, whatever follows it that satisfies `K`. -/
def Spells (K : List Char → Prop) (text : String) (ts : List Token) : Prop :=
  ∀ (rest : List Char) (us : List Lexed), K rest → Scans rest us → Scans (text.toList ++ rest) (ts.map .token ++ us)

namespace Spells

variable {K : List Char → Prop} {a b : String} {ts us : List Token}

/-- A piece of text and the one that follows it. -/
theorem append {L : List Char → Prop} (ha : Spells L a ts) (hb : Spells K b us) (h : ∀ rest, K rest → L (b.toList ++ rest)) :
    Spells K (a ++ b) (ts ++ us) := by
  intro rest vs hk hrest
  rw [String.toList_append, List.append_assoc, List.map_append, List.append_assoc]
  exact ha _ _ (h rest hk) (hb _ _ hk hrest)

/-- A piece of text that anything may follow. -/
theorem and_then (ha : Spells (fun _ => True) a ts) (hb : Spells K b us) : Spells K (a ++ b) (ts ++ us) :=
  ha.append hb fun _ _ => trivial

/-- A piece of text behind which a word has to end. -/
theorem and_end (ha : Spells (endsWord · = true) a ts) (hb : Spells K b us) {c : Char} (hhead : b.toList.head? = some c)
    (hc : endsWord [c] = true) : Spells K (a ++ b) (ts ++ us) := by
  refine ha.append hb fun rest _ => ?_
  rw [endsWord, List.head?_append, hhead]
  exact hc

/-- A name with something behind it that no name goes on with. -/
theorem name {name : String} (h : isName name = true) :
    Spells (fun rest => ∀ c ∈ rest.head?, Lexeme.continuesName c = false) name [.identifier name] :=
  fun _ _ hends hrest => Scans.name h hends hrest

/-- A name spells its own token, where the word ends behind it. -/
theorem word {name : String} (h : isName name = true) : Spells (endsWord · = true) name [.identifier name] := by
  intro rest vs hends hrest
  refine Scans.name h (fun c hc => ?_) hrest
  rw [endsWord, Option.mem_def.mp hc] at hends
  simp_all

/-- The literal of a number spells the token of that number, where the word ends behind it. -/
theorem literal {x : Binary64} (h : x.IsPlain) : Spells (endsWord · = true) x.literal [.number x] := by
  intro rest vs hends hrest
  refine Scans.literal h (fun c hc => ?_) hrest
  rw [endsWord, Option.mem_def.mp hc] at hends
  simp_all

section Marks

variable {text : String} {c : Char} (hc : Lexeme.isMark c = true)

include hc

/-- A single character. -/
theorem mark (htext : text.toList = [c]) (hcomment : c ≠ '/') : Spells (fun _ => True) text [.punct c] := by
  intro rest vs _ hrest
  rw [htext]
  exact Scans.punct hc (fun h => absurd h hcomment) hrest

/-- A single character with a blank behind it. -/
theorem mark_blank (htext : text.toList = [c, ' ']) : Spells (fun _ => True) text [.punct c] := by
  intro rest vs _ hrest
  rw [htext]
  exact Scans.punct hc (fun _ => by simp) (Scans.blank rfl hrest)

/-- A single character with blanks around it. -/
theorem spaced (htext : text.toList = [' ', c, ' ']) : Spells (fun _ => True) text [.punct c] := by
  intro rest vs _ hrest
  rw [htext]
  exact Scans.blank rfl (Scans.punct hc (fun _ => by simp) (Scans.blank rfl hrest))

end Marks

/-- A blank in front of a piece of text. -/
theorem after_blank (h : Spells K a ts) : Spells K (" " ++ a) ts := by
  intro rest vs hk hrest
  rw [String.toList_append, List.append_assoc]
  exact Scans.blank rfl (h rest vs hk hrest)

/-- Pieces of text with a character between each two. -/
theorem intercalate {α : Type} {text : α → String} {tokens : α → List Token} {separator : String} {c : Char}
    (hs : Spells (fun _ => True) separator [.punct c]) {d : Char} (hhead : separator.toList.head? = some d)
    (hd : endsWord [d] = true) {xs : List α} (h : ∀ x ∈ xs, Spells (endsWord · = true) (text x) (tokens x)) :
    Spells (endsWord · = true) (separator.intercalate (xs.map text)) (Token.joined c (xs.map tokens)) := by
  induction xs with
  | nil =>
    intro rest us _ hrest
    exact hrest
  | cons x xs ih =>
    have hx := h x List.mem_cons_self
    cases xs with
    | nil => simpa [Token.joined] using hx
    | cons y ys =>
      have hrest := ih fun z hz => h z (List.mem_cons_of_mem _ hz)
      have htext := (hx.and_end hs hhead hd).and_then hrest
      rw [List.map_cons, List.map_cons, String.intercalate_cons_cons, ← List.map_cons]
      simpa [Token.joined] using htext

end Spells

end Offside
