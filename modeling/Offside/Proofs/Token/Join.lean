import Offside.Proofs.Token.Scan

/-!
# Sources joined by a line feed

The stream of two sources with a line feed between them, in terms of the streams of the two. What counts of an item is what it
stands for and its line, which is its `Item.face`. The items of the first source stay as they are: no lexeme but a separator goes on
with a line feed. Then comes one separator, unless the first source ends in one already, and it takes in the separators that the
second source begins with. The other items of the second source stand a number of lines further down (`TokenStream.ofSource_join`).
-/

namespace Offside

/-- The same line, a number of lines further down. -/
def Place.down (n : Nat) (p : Place) : Place := { p with line := p.line + n }

@[simp] theorem Place.down_zero (p : Place) : p.down 0 = p := rfl

/-- What an item stands for, and its line. -/
def Item.face (i : Item) : Lexed × Place := (i.lexed, i.place)

/-- An item of the same kind a number of lines further down. -/
def faceDown (n : Nat) (x : Lexed × Place) : Lexed × Place := (x.1, x.2.down n)

/-- The faces of the items of a stream. -/
def TokenStream.faces (s : TokenStream) : List (Lexed × Place) := s.items.map Item.face

/-- Without their lines the faces are what the items stand for. -/
theorem TokenStream.map_fst_faces (s : TokenStream) : s.faces.map Prod.fst = s.items.map (·.lexed) := by
  rw [faces, List.map_map]
  rfl

/-- What a lexeme contributes to the faces of a stream. -/
def Lexeme.shown (l : Lexeme) (p : Place) : List (Lexed × Place) := if l.isTrivia then [] else [(l.lexed, p)]

/-- A lexeme that stands further down shows the same further down. -/
theorem Lexeme.shown_down (l : Lexeme) (n : Nat) (p : Place) : l.shown (p.down n) = (l.shown p).map (faceDown n) := by
  unfold shown
  split <;> rfl

/-- Characters are passed over piece by piece. -/
theorem Position.skip_add (n m : Nat) (p : Position) : p.skip (n + m) = (p.skip n).skip m := by
  induction n generalizing p with
  | zero => rw [Nat.zero_add, skip]
  | succ n ih => rw [Nat.succ_add, skip, skip, ih]

namespace TokenStream

/-! ## Streams lexeme by lexeme -/

/-- There are no more lexemes than characters, so the bound of a stream is never met. -/
theorem scan_congr (n : Nat) : ∀ {m : Nat} {p : Position}, p.ahead.length ≤ n → p.ahead.length ≤ m → scan n p = scan m p := by
  have hnil : ∀ {p : Position} (n : Nat), p.ahead = [] → scan n p = nil p := by
    intro p n hp
    cases n with
    | zero => rfl
    | succ n => rw [scan, hp]
  induction n with
  | zero =>
    intro m p hn _
    have hp := List.eq_nil_of_length_eq_zero (Nat.le_zero.mp hn)
    rw [hnil 0 hp, hnil m hp]
  | succ n ih =>
    intro m p hn hm
    cases hp : p.ahead with
    | nil => rw [hnil _ hp, hnil m hp]
    | cons c after =>
      rw [hp, List.length_cons] at hn hm
      obtain ⟨m, rfl⟩ : ∃ i, m = i + 1 := ⟨m - 1, by omega⟩
      have hpos := Lexeme.length_first_pos c after
      have hlength : (p.skip (Lexeme.first c after).chars.length).ahead.length ≤ after.length := by
        rw [Position.ahead_skip, hp, List.length_drop, List.length_cons]
        omega
      rw [scan, scan, hp]
      dsimp only
      rw [ih (m := m) (by omega) (by omega)]

/-- At the end of a text there is no item. -/
theorem ofPosition_nil {p : Position} (h : p.ahead = []) : ofPosition p = nil p := by
  rw [ofPosition, h]
  rfl

section

variable {p : Position} {c : Char} {after : List Char}

/-- A stream begins with the first lexeme, unless that is trivia. -/
theorem ofPosition_cons (h : p.ahead = c :: after) :
    ofPosition p =
      let rest := ofPosition (p.skip (Lexeme.first c after).chars.length)
      if (Lexeme.first c after).isTrivia then rest else rest.cons { lexed := (Lexeme.first c after).lexed, position := p } := by
  have hpos := Lexeme.length_first_pos c after
  have hlength : (p.skip (Lexeme.first c after).chars.length).ahead.length ≤ after.length := by
    rw [Position.ahead_skip, h, List.length_drop, List.length_cons]
    omega
  rw [ofPosition, h, List.length_cons, scan, h]
  dsimp only
  rw [scan_congr _ hlength (Nat.le_refl _)]
  rfl

/-- The faces of a text are what its first lexeme shows, and the faces of the rest. -/
theorem faces_cons (h : p.ahead = c :: after) :
    (ofPosition p).faces =
      (Lexeme.first c after).shown p.place ++ (ofPosition (p.skip (Lexeme.first c after).chars.length)).faces := by
  rw [ofPosition_cons h, Lexeme.shown]
  dsimp only
  split <;> rfl

/-- A text ends where the rest behind its first lexeme ends. -/
theorem finish_cons (h : p.ahead = c :: after) :
    (ofPosition p).finish = (ofPosition (p.skip (Lexeme.first c after).chars.length)).finish := by
  rw [ofPosition_cons h]
  dsimp only
  split <;> rfl

end

theorem faces_nil {p : Position} (h : p.ahead = []) : (ofPosition p).faces = [] := by
  rw [ofPosition_nil h]
  rfl

theorem finish_nil {p : Position} (h : p.ahead = []) : (ofPosition p).finish = p := by
  rw [ofPosition_nil h]
  rfl

end TokenStream

/-! ## Text that a line feed follows -/

/-- What stops a run stops it whatever follows. -/
theorem takeWhile_append_stop {p : Char → Bool} {d : Char} (h : p d = false) (xs ys : List Char) :
    (xs ++ d :: ys).takeWhile p = xs.takeWhile p := by
  induction xs with
  | nil => simp [h]
  | cons x xs ih =>
    rw [List.cons_append, List.takeWhile_cons, List.takeWhile_cons, ih]

namespace Lexeme

/-- No lexeme goes on with a line feed, except a separator that reaches up to it. -/
theorem first_append {c : Char} {after : List Char} (rest : List Char)
    (h : isSeparator c = false ∨ ∃ d ∈ after, isSeparator d = false) : first c (after ++ '\n' :: rest) = first c after := by
  have hname : (after ++ '\n' :: rest).takeWhile continuesName = after.takeWhile continuesName := takeWhile_append_stop (by decide) _ _
  have hnumber : (after ++ '\n' :: rest).takeWhile continuesNumber = after.takeWhile continuesNumber :=
    takeWhile_append_stop (by decide) _ _
  have hblank : (after ++ '\n' :: rest).takeWhile isBlank = after.takeWhile isBlank := takeWhile_append_stop (by decide) _ _
  have hcomment : (after ++ '\n' :: rest).takeWhile (fun d => !isTerminator d) = after.takeWhile fun d => !isTerminator d :=
    takeWhile_append_stop (by decide) _ _
  have hslash : ((after ++ '\n' :: rest).head? == some '/') = (after.head? == some '/') := by
    cases after with
    | nil => rfl
    | cons d after => rfl
  have hseparator : isSeparator c = true →
      (after ++ '\n' :: rest).takeWhile isSeparator = after.takeWhile isSeparator := by
    intro hc
    obtain ⟨d, hd, hstop⟩ := h.resolve_left (by simp [hc])
    obtain ⟨xs, ys, rfl⟩ := List.append_of_mem hd
    rw [List.append_assoc, List.cons_append, takeWhile_append_stop hstop, takeWhile_append_stop hstop]
  unfold first
  rw [hname, hnumber, hblank, hcomment, hslash]
  split
  · rfl
  · split
    · rfl
    · split
      · rename_i hc
        rw [hseparator hc]
      · rfl

/-- A lexeme is a piece at the start of the text. -/
theorem take_first (c : Char) (after : List Char) :
    (c :: after).take (first c after).chars.length = (first c after).chars := by
  have htake : ∀ p : Char → Bool, (c :: after).take (c :: after.takeWhile p).length = c :: after.takeWhile p := by
    intro p
    have hsplit : c :: after = c :: after.takeWhile p ++ after.dropWhile p := by
      rw [List.cons_append, List.takeWhile_append_dropWhile]
    rw [hsplit, List.take_left]
  unfold first ofWord ofNumber
  split
  · exact htake _
  · split
    · exact htake _
    · split
      · exact htake _
      · split
        · exact htake _
        · split
          · exact htake _
          · rfl

/-- A lexeme is no longer than the text it is taken from. -/
theorem length_first_le (c : Char) (after : List Char) : (first c after).chars.length ≤ (c :: after).length := by
  have hlength := congrArg List.length (take_first c after)
  rw [List.length_take] at hlength
  omega

/-- The text at a position is its first lexeme and what is behind that. -/
theorem first_append_skip {p : Position} {c : Char} {after : List Char} (h : p.ahead = c :: after) :
    p.ahead = (first c after).chars ++ (p.skip (first c after).chars.length).ahead := by
  have htake := List.take_append_drop (first c after).chars.length (c :: after)
  rwa [take_first, eq_comm, ← h, ← Position.ahead_skip] at htake

/-- Induction on the lexemes ahead of a position. -/
@[elab_as_elim]
theorem inductAhead {motive : Position → Prop} (ended : ∀ p, p.ahead = [] → motive p)
    (lexeme : ∀ p c after, p.ahead = c :: after → motive (p.skip (first c after).chars.length) → motive p) (p : Position) :
    motive p := by
  generalize hn : p.ahead.length = n
  induction n using Nat.strongRecOn generalizing p with
  | ind n ih =>
    cases hp : p.ahead with
    | nil => exact ended p hp
    | cons c after =>
      have hpos := length_first_pos c after
      have hlength := congrArg List.length (first_append_skip hp)
      rw [List.length_append] at hlength
      exact lexeme p c after hp (ih _ (by omega) _ rfl)

/-- Only separators hold characters that end a line. -/
theorem not_terminator_of_mem_first {c : Char} (h : isSeparator c = false) (after : List Char) :
    ∀ d ∈ (first c after).chars, isTerminator d = false := by
  have hc : isTerminator c = false := by
    rw [isSeparator, Bool.or_eq_false_iff] at h
    exact h.1
  -- a rule that goes on with no line terminator takes none
  have htake : ∀ p : Char → Bool, p '\n' = false → p '\r' = false → ∀ d ∈ c :: after.takeWhile p, isTerminator d = false := by
    intro p hn hr d hd
    rcases List.mem_cons.mp hd with rfl | hd
    · exact hc
    · have hp := List.all_eq_true.mp List.all_takeWhile d hd
      by_cases hterm : isTerminator d = true
      · rw [isTerminator, Bool.or_eq_true, beq_iff_eq, beq_iff_eq] at hterm
        rcases hterm with rfl | rfl
        · rw [hn] at hp
          cases hp
        · rw [hr] at hp
          cases hp
      · simpa using hterm
  unfold first ofWord ofNumber
  rw [h]
  split
  · exact htake _ (by decide) (by decide)
  · split
    · exact htake _ (by decide) (by decide)
    · split
      · rename_i hfalse
        cases hfalse
      · split
        · exact htake _ (by decide) (by decide)
        · split
          · exact htake _ (by decide) (by decide)
          · simpa using hc

end Lexeme

/-- Two positions at the same place of a source, where `q` ends in front of a line feed and `p` goes on with `rest` behind it. -/
structure CutOff (rest : List Char) (p q : Position) : Prop where
  behind : p.behind = q.behind
  ahead : p.ahead = q.ahead ++ '\n' :: rest
  line : p.line = q.line

namespace CutOff

variable {rest : List Char} {p q : Position}

/-- The first of two joined sources is cut off at the line feed. -/
theorem start (a b : String) : CutOff b.toList (.start (a ++ "\n" ++ b)) (.start a) :=
  ⟨rfl, by simp [Position.start], rfl⟩

/-- The line that is shown ends in front of the line feed anyway. -/
theorem place (h : CutOff rest p q) : p.place = q.place := by
  simp only [Position.place, Position.lineText, h.behind, h.ahead, h.line]
  rw [takeWhile_append_stop (by decide)]

/-- A carriage return at the very end of the shorter text is the only character that ends a line in one and not in the other. -/
theorem next (h : CutOff rest p q) {c : Char} {after : List Char} (hq : q.ahead = c :: after) (hc : isTerminator c = false ∨ after ≠ []) :
    CutOff rest p.next q.next := by
  have hp : p.ahead = c :: (after ++ '\n' :: rest) := by rw [h.ahead, hq, List.cons_append]
  have hends : Position.endsLine c (after ++ '\n' :: rest) = Position.endsLine c after := by
    cases after with
    | nil =>
      have hc := hc.resolve_right (by simp)
      rw [isTerminator, Bool.or_eq_false_iff] at hc
      simp [Position.endsLine, hc.1, hc.2]
    | cons d after => rfl
  refine ⟨?_, ?_, ?_⟩ <;> simp [Position.next, hp, hq, hends, h.behind, h.line]

/-- Both positions move on alike, as long as the shorter text lasts. -/
theorem skip (n : Nat) : ∀ {p q : Position}, CutOff rest p q → n ≤ q.ahead.length →
    (n < q.ahead.length ∨ ∀ c ∈ q.ahead.take n, isTerminator c = false) → CutOff rest (p.skip n) (q.skip n) := by
  induction n with
  | zero => intro p q h _ _; exact h
  | succ n ih =>
    intro p q h hn hc
    cases hq : q.ahead with
    | nil => rw [hq] at hn; cases hn
    | cons c after =>
      rw [hq] at hn hc
      have hahead : q.next.ahead = after := by rw [Position.ahead_next, hq, List.drop_one, List.tail_cons]
      refine ih (h.next hq ?_) (by rw [hahead]; exact Nat.le_of_succ_le_succ hn) ?_
      · rcases hc with hlt | hall
        · right
          rintro rfl
          simp at hlt
        · exact Or.inl (hall c (by simp))
      · rw [hahead]
        rcases hc with hlt | hall
        · exact Or.inl (Nat.lt_of_succ_lt_succ hlt)
        · exact Or.inr fun d hd => hall d (by simp [hd])

/-- Behind a lexeme that does not go on with the line feed the positions are still at the same place. -/
theorem skip_first (h : CutOff rest p q) {c : Char} {after : List Char} (hq : q.ahead = c :: after)
    (hc : Lexeme.isSeparator c = false ∨ ∃ d ∈ after, Lexeme.isSeparator d = false) :
    CutOff rest (p.skip (Lexeme.first c after).chars.length) (q.skip (Lexeme.first c after).chars.length) := by
  refine skip _ h (by rw [hq]; exact Lexeme.length_first_le c after) ?_
  rw [hq, Lexeme.take_first]
  by_cases hsep : Lexeme.isSeparator c = true
  · -- the separator stops inside the shorter text
    left
    obtain ⟨d, hd, hstop⟩ := hc.resolve_left (by simp [hsep])
    rw [Lexeme.first_separator hsep, List.length_cons, List.length_cons]
    refine Nat.succ_lt_succ ?_
    have hlength := congrArg List.length (List.takeWhile_append_dropWhile (p := Lexeme.isSeparator) (l := after))
    rw [List.length_append] at hlength
    have hdrop : after.dropWhile Lexeme.isSeparator ≠ [] := by
      intro hnil
      have htake : after.takeWhile Lexeme.isSeparator = after := by
        have hsplit := List.takeWhile_append_dropWhile (p := Lexeme.isSeparator) (l := after)
        rwa [hnil, List.append_nil] at hsplit
      have hd' := List.all_eq_true.mp List.all_takeWhile d (htake.symm ▸ hd)
      rw [hstop] at hd'
      cases hd'
    have hpos := List.length_pos_iff.mpr hdrop
    omega
  · exact Or.inr (Lexeme.not_terminator_of_mem_first (by simpa using hsep) after)

/-- What stands between the items of a text and those of the text behind it: a separator, unless the text ends in one. -/
inductive Fence (s : TokenStream) : List (Lexed × Place) → Prop where
  | separator : Fence s [(.token .statementEnd, s.finish.place)]
  | none (front : List (Lexed × Place)) (place : Place) : s.faces = front ++ [(.token .statementEnd, place)] → Fence s []

/-- A text with nothing but separators from its first character on is one lexeme, with the line feed or without it. -/
theorem takeWhile_separators {after : List Char} (hall : ∀ d ∈ after, Lexeme.isSeparator d = true) (rest : List Char) :
    (after ++ '\n' :: rest).takeWhile Lexeme.isSeparator = after ++ '\n' :: rest.takeWhile Lexeme.isSeparator ∧
      after.takeWhile Lexeme.isSeparator = after := by
  constructor
  · rw [List.takeWhile_append_of_pos hall, List.takeWhile_cons, if_pos (by decide)]
  · have hstop : (after ++ []).takeWhile Lexeme.isSeparator = after := Lexeme.takeWhile_stop hall (by simp)
    rwa [List.append_nil] at hstop

/-- The items of a text that a line feed follows, and the items behind the separator that the line feed is part of. What stands between
them depends on the text in front of the line feed only. -/
theorem faces (q : Position) : ∃ fence, Fence (.ofPosition q) fence ∧ ∀ {rest : List Char} {p : Position}, CutOff rest p q →
    let behind := TokenStream.ofPosition (p.skip (q.ahead.length + (1 + (rest.takeWhile Lexeme.isSeparator).length)))
    (TokenStream.ofPosition p).faces = (TokenStream.ofPosition q).faces ++ fence ++ behind.faces ∧
      (TokenStream.ofPosition p).finish = behind.finish := by
  generalize hn : q.ahead.length = n
  induction n using Nat.strongRecOn generalizing q with
  | ind n ih =>
    cases hq : q.ahead with
    | nil =>
      have hfence := Fence.separator (s := .ofPosition q)
      rw [TokenStream.finish_nil hq] at hfence
      refine ⟨_, hfence, fun {rest p} h => ?_⟩
      have hp : p.ahead = '\n' :: rest := by rw [h.ahead, hq, List.nil_append]
      have hlexeme := Lexeme.first_separator (c := '\n') (by decide) rest
      have hlength : (Lexeme.first '\n' rest).chars.length = n + (1 + (rest.takeWhile Lexeme.isSeparator).length) := by
        rw [hlexeme, ← hn, hq, List.length_cons, List.length_nil]
        omega
      constructor
      · rw [TokenStream.faces_cons hp, TokenStream.faces_nil hq, hlength, hlexeme, h.place]
        rfl
      · rw [TokenStream.finish_cons hp, hlength]
    | cons c after =>
      have hahead : ∀ {rest : List Char} {p : Position}, CutOff rest p q → p.ahead = c :: (after ++ '\n' :: rest) := by
        intro rest p h
        rw [h.ahead, hq, List.cons_append]
      rw [hq, List.length_cons] at hn
      by_cases hc : Lexeme.isSeparator c = false ∨ ∃ d ∈ after, Lexeme.isSeparator d = false
      · -- a lexeme that does not reach the line feed is the same in both texts
        have hle := Lexeme.length_first_le c after
        have hpos := Lexeme.length_first_pos c after
        have hlength : (q.skip (Lexeme.first c after).chars.length).ahead.length = n - (Lexeme.first c after).chars.length := by
          rw [Position.ahead_skip, hq, List.length_drop, List.length_cons, hn]
        rw [List.length_cons, hn] at hle
        obtain ⟨fence, hfence, hrest⟩ := ih _ (by omega) _ hlength
        refine ⟨fence, ?_, fun {rest p} h => ?_⟩
        · cases hfence with
          | separator =>
            have hfence := Fence.separator (s := .ofPosition q)
            rwa [TokenStream.finish_cons hq] at hfence
          | none front place hlast =>
            refine .none ((Lexeme.first c after).shown q.place ++ front) place ?_
            rw [TokenStream.faces_cons hq, hlast, List.append_assoc]
        have hfirst := Lexeme.first_append rest hc
        have hskip : (p.skip (Lexeme.first c after).chars.length).skip
            (n - (Lexeme.first c after).chars.length + (1 + (rest.takeWhile Lexeme.isSeparator).length)) =
              p.skip (n + (1 + (rest.takeWhile Lexeme.isSeparator).length)) := by
          rw [← Position.skip_add]
          congr 1
          omega
        obtain ⟨hfaces, hfinish⟩ := hrest (h.skip_first hq hc)
        rw [hskip] at hfaces hfinish
        constructor
        · rw [TokenStream.faces_cons (hahead h), TokenStream.faces_cons hq, hfirst, hfaces, h.place]
          simp only [List.append_assoc]
        · rw [TokenStream.finish_cons (hahead h), hfirst, hfinish]
      · -- a separator that reaches the line feed takes it in
        simp only [not_or, Bool.not_eq_false, not_exists, not_and] at hc
        obtain ⟨hsep, hall⟩ := hc
        have hlexeme' := Lexeme.first_separator hsep after
        rw [(takeWhile_separators hall []).2] at hlexeme'
        have hover : (q.skip (Lexeme.first c after).chars.length).ahead = [] := by
          rw [Position.ahead_skip, hq, hlexeme', List.drop_length]
        have hfaces : (TokenStream.ofPosition q).faces = [] ++ [(.token .statementEnd, q.place)] := by
          rw [TokenStream.faces_cons hq, TokenStream.faces_nil hover, hlexeme']
          rfl
        refine ⟨[], .none [] q.place hfaces, fun {rest p} h => ?_⟩
        have hlexeme := Lexeme.first_separator hsep (after ++ '\n' :: rest)
        rw [(takeWhile_separators hall rest).1] at hlexeme
        have hlength : (Lexeme.first c (after ++ '\n' :: rest)).chars.length =
            n + (1 + (rest.takeWhile Lexeme.isSeparator).length) := by
          rw [hlexeme, ← hn, List.length_cons, List.length_append, List.length_cons]
          omega
        constructor
        · rw [TokenStream.faces_cons (hahead h), hfaces, hlength, hlexeme, h.place]
          rfl
        · rw [TokenStream.finish_cons (hahead h), hlength]

end CutOff

/-! ## Text further down -/

/-- Two positions with the same text to come, where `p` stands `n` lines further down, behind the text `before` and a line feed. -/
structure Below (n : Nat) (before : List Char) (p q : Position) : Prop where
  behind : p.behind = q.behind ++ '\n' :: before
  ahead : p.ahead = q.ahead
  line : p.line = q.line + n

namespace Below

variable {n : Nat} {before : List Char} {p q : Position}

/-- The line that is shown begins behind the line feed anyway. -/
theorem place (h : Below n before p q) : p.place = q.place.down n := by
  simp only [Position.place, Place.down, Position.lineText, h.behind, h.ahead, h.line]
  rw [takeWhile_append_stop (by decide)]

/-- Both positions read the same character, and keep their distance in lines. -/
theorem next (h : Below n before p q) : Below n before p.next q.next := by
  cases hq : q.ahead with
  | nil => refine ⟨?_, ?_, ?_⟩ <;> simp [Position.next, h.ahead, hq, h.behind, h.line]
  | cons c after =>
    refine ⟨?_, ?_, ?_⟩
    · simp [Position.next, h.ahead, hq, h.behind]
    · simp [Position.next, h.ahead, hq]
    · simp only [Position.next, h.ahead, hq, h.line]
      split <;> omega

/-- Both positions pass over the same characters, and keep their distance in lines. -/
theorem skip (k : Nat) : ∀ {p q : Position}, Below n before p q → Below n before (p.skip k) (q.skip k) := by
  induction k with
  | zero => exact fun h => h
  | succ k ih => exact fun h => ih h.next

/-- The same text further down has the same items further down. -/
theorem faces (h : Below n before p q) :
    (TokenStream.ofPosition p).faces = (TokenStream.ofPosition q).faces.map (faceDown n) ∧
      (TokenStream.ofPosition p).finish.place = (TokenStream.ofPosition q).finish.place.down n := by
  induction q using Lexeme.inductAhead generalizing p with
  | ended q hq =>
    have hp := h.ahead.trans hq
    rw [TokenStream.faces_nil hp, TokenStream.faces_nil hq, TokenStream.finish_nil hp, TokenStream.finish_nil hq]
    exact ⟨rfl, h.place⟩
  | lexeme q c after hq ih =>
    have hp := h.ahead.trans hq
    obtain ⟨hfaces, hfinish⟩ := ih (h.skip _)
    rw [TokenStream.faces_cons hp, TokenStream.faces_cons hq, TokenStream.finish_cons hp, TokenStream.finish_cons hq, hfaces, h.place,
      Lexeme.shown_down, List.map_append]
    exact ⟨rfl, hfinish⟩

end Below

/-! ## Two sources -/

/-- The position behind a piece of text. -/
theorem Position.skip_append (xs : List Char) : ∀ {p : Position} {ys : List Char}, p.ahead = xs ++ ys →
    (p.skip xs.length).behind = xs.reverse ++ p.behind ∧ (p.skip xs.length).ahead = ys := by
  induction xs with
  | nil => intro p ys hp; exact ⟨rfl, hp⟩
  | cons x xs ih =>
    intro p ys hp
    have hnext : p.next.ahead = xs ++ ys := by rw [ahead_next, hp]; rfl
    obtain ⟨hbehind, hahead⟩ := ih hnext
    refine ⟨?_, hahead⟩
    rw [List.length_cons, skip, hbehind]
    simp [next, hp]

/-- Passing over characters leads to no earlier line. -/
theorem Position.line_le_skip (n : Nat) (p : Position) : p.line ≤ (p.skip n).line := by
  induction n generalizing p with
  | zero => exact Nat.le_refl _
  | succ n ih =>
    refine Nat.le_trans ?_ (ih p.next)
    unfold next
    split
    · exact Nat.le_refl _
    · dsimp only
      split <;> omega

/-- The number of the line that the text behind the first `n` characters of a source begins on. -/
def lineAt (source : String) (n : Nat) : Nat := ((Position.start source).skip n).line

namespace TokenStream

/-- The items of a text behind the separators that it begins with. -/
theorem faces_separators (p : Position) :
    let rest := ofPosition (p.skip (p.ahead.takeWhile Lexeme.isSeparator).length)
    ∃ lead, (∀ x ∈ lead, x.1 = .token .statementEnd) ∧ (ofPosition p).faces = lead ++ rest.faces ∧
      (ofPosition p).finish = rest.finish := by
  cases hp : p.ahead with
  | nil => exact ⟨[], by simp, rfl, rfl⟩
  | cons c after =>
    by_cases hc : Lexeme.isSeparator c = true
    · have hlexeme := Lexeme.first_separator hc after
      rw [List.takeWhile_cons, if_pos hc]
      refine ⟨[(.token .statementEnd, p.place)], by simp, ?_, ?_⟩
      · rw [faces_cons hp, hlexeme]
        rfl
      · rw [finish_cons hp, hlexeme]
    · rw [List.takeWhile_cons, if_neg hc]
      exact ⟨[], by simp, rfl, rfl⟩

/-- The stream of two sources with a line feed between them: the items of the first, what stands between them, and the items of the
second, further down, without the separators that the second begins with. -/
structure Splice (a b : String) (fence lead rest : List (Lexed × Place)) : Prop where
  separators : ∀ x ∈ lead, x.1 = .token .statementEnd
  second : (ofSource b).faces = lead ++ rest
  faces : (ofSource (a ++ "\n" ++ b)).faces =
    (ofSource a).faces ++ fence ++ rest.map (faceDown (lineAt (a ++ "\n" ++ b) (a.length + 1) - 1))
  finish : (ofSource (a ++ "\n" ++ b)).finish.place =
    (ofSource b).finish.place.down (lineAt (a ++ "\n" ++ b) (a.length + 1) - 1)

/-- The separators that the second of two sources begins with are part of the separator that the line feed between them makes, or of
the one that the first ends in. What stands between them depends on the first only. -/
theorem ofSource_join (a : String) : ∃ fence, CutOff.Fence (ofSource a) fence ∧ ∀ b, ∃ lead rest, Splice a b fence lead rest := by
  obtain ⟨fence, hfence, hjoin⟩ := CutOff.faces (.start a)
  refine ⟨fence, hfence, fun b => ?_⟩
  have hahead : (Position.start (a ++ "\n" ++ b)).ahead = (a.toList ++ ['\n']) ++ b.toList := by simp [Position.start]
  obtain ⟨hbehind, hrest⟩ := Position.skip_append _ hahead
  have hlength : (a.toList ++ ['\n']).length = a.length + 1 := by
    rw [List.length_append, String.length_toList, List.length_singleton]
  rw [hlength] at hbehind hrest
  have hbelow : Below (lineAt (a ++ "\n" ++ b) (a.length + 1) - 1) a.toList.reverse
      ((Position.start (a ++ "\n" ++ b)).skip (a.length + 1)) (.start b) := by
    refine ⟨?_, hrest, ?_⟩
    · rw [hbehind]
      simp [Position.start]
    · have hline := Position.line_le_skip (a.length + 1) (.start (a ++ "\n" ++ b))
      have hfirst : (Position.start (a ++ "\n" ++ b)).line = 1 := rfl
      have hfirst' : (Position.start b).line = 1 := rfl
      show _ = _ + (lineAt _ _ - 1)
      rw [lineAt]
      omega
  obtain ⟨hfaces, hfinish⟩ := hjoin (CutOff.start a b)
  obtain ⟨lead, hlead, hfaces', hfinish'⟩ := faces_separators (.start b)
  obtain ⟨hdown, hdown'⟩ := (hbelow.skip (b.toList.takeWhile Lexeme.isSeparator).length).faces
  have hskip : (Position.start (a ++ "\n" ++ b)).skip
      ((Position.start a).ahead.length + (1 + (b.toList.takeWhile Lexeme.isSeparator).length)) =
        ((Position.start (a ++ "\n" ++ b)).skip (a.length + 1)).skip (b.toList.takeWhile Lexeme.isSeparator).length := by
    rw [← Position.skip_add]
    congr 1
    simp only [Position.start, String.length_toList]
    omega
  rw [hskip] at hfaces hfinish
  refine ⟨lead, _, hlead, hfaces', ?_, ?_⟩
  · rw [hdown] at hfaces
    exact hfaces
  · rw [ofSource, hfinish, hdown']
    exact congrArg (Place.down _) (congrArg Position.place hfinish'.symm)

end TokenStream

end Offside
