import Mathlib.Order.Bounds.Defs
import Offside.Proofs.Token.Join

/-!
# Moving through a source

A position is moved by reading the next character and by moving on to a byte offset. Wherever it is moved, it is the position behind
the first `n` characters of the source for some `n`, and that position has a closed form, `Position.reached`: the bytes are those of the
characters read, and the lines are counted in the source as a whole. Its offset alone tells `n`, so nothing else of the way counts.

Main statement: where a row of moves leads (`Position.run_reaches`).
-/

namespace Offside

/-- What can be done with a position: the next character is looked at or read, or the position moves on to a byte offset. -/
inductive Move where
  | peek
  | consume
  | advanceTo (offset : Nat)
deriving DecidableEq, Repr

/-- Whether a line ends with the character at an index of a text: it is a line feed, or a carriage return that no line feed follows. -/
def endsLineAt (cs : List Char) (i : Nat) : Bool := cs[i]? == some '\n' || (cs[i]? == some '\r' && cs[i + 1]? != some '\n')

/-- The number of lines that end with one of the first `n` characters of a text. -/
def lineEnds (cs : List Char) (n : Nat) : Nat := (List.range n).countP (endsLineAt cs)

/-- The number of bytes of the first `n` characters of a source. -/
def offsetOf (source : String) (n : Nat) : Nat := (String.ofList (source.toList.take n)).utf8ByteSize

namespace Position

/-- What a move answers, and the position behind it. -/
def perform (p : Position) : Move → Option Char × Position
  | .peek => (p.peek, p)
  | .consume => (p.peek, p.next)
  | .advanceTo offset => (none, p.advanceTo offset)

/-- The position behind a row of moves. -/
def run (p : Position) (moves : List Move) : Position := moves.foldl (fun p move => (p.perform move).2) p

/-- The position behind the first `n` characters of a source. -/
def reached (source : String) (n : Nat) : Position :=
  { behind := (source.toList.take n).reverse, ahead := source.toList.drop n, offset := offsetOf source n,
    line := 1 + lineEnds source.toList n }

end Position

/-! ## Counting characters, bytes and lines -/

section

variable {source : String} {c : Char} {after : List Char} {n m : Nat}

/-- One more character is one more line end, or none. -/
theorem lineEnds_succ (cs : List Char) (n : Nat) : lineEnds cs (n + 1) = lineEnds cs n + if endsLineAt cs n then 1 else 0 := by
  rw [lineEnds, lineEnds, List.range_succ, List.countP_append, List.countP_singleton]

/-- The first of the characters to come is the next one that is read. -/
theorem take_succ_of_drop {cs : List Char} (h : cs.drop n = c :: after) : cs.take (n + 1) = cs.take n ++ [c] := by
  rw [List.take_add_one, ← List.head?_drop, h]
  rfl

/-- A character takes as many bytes as it has in UTF-8. -/
theorem offsetOf_succ (h : source.toList.drop n = c :: after) : offsetOf source (n + 1) = offsetOf source n + c.utf8Size := by
  rw [offsetOf, offsetOf, take_succ_of_drop h, String.ofList_append, String.utf8ByteSize_append]
  simp

/-- All characters take the bytes of the source. -/
theorem offsetOf_length (source : String) : offsetOf source source.length = source.utf8ByteSize := by
  rw [offsetOf, ← String.length_toList, List.take_length, String.ofList_toList]

/-- One more character is more bytes, as long as there is one. -/
theorem offsetOf_lt_succ (h : n < source.length) : offsetOf source n < offsetOf source (n + 1) := by
  obtain ⟨c, after, hdrop⟩ : ∃ c after, source.toList.drop n = c :: after :=
    ⟨_, _, List.drop_eq_getElem_cons (by rwa [String.length_toList])⟩
  rw [offsetOf_succ hdrop]
  exact Nat.lt_add_of_pos_right c.utf8Size_pos

/-- More characters are more bytes. -/
theorem offsetOf_lt (h : n < m) (hm : m ≤ source.length) : offsetOf source n < offsetOf source m := by
  induction m with
  | zero => omega
  | succ m ih =>
    have hstep : offsetOf source m < offsetOf source (m + 1) := offsetOf_lt_succ (by omega)
    rcases Nat.lt_succ_iff_lt_or_eq.mp h with hlt | rfl
    · exact Nat.lt_trans (ih hlt (by omega)) hstep
    · exact hstep

theorem offsetOf_le (h : n ≤ m) (hm : m ≤ source.length) : offsetOf source n ≤ offsetOf source m := by
  rcases Nat.lt_or_eq_of_le h with hlt | rfl
  · exact Nat.le_of_lt (offsetOf_lt hlt hm)
  · exact Nat.le_refl _

/-- The number of bytes tells the number of characters. -/
theorem offsetOf_inj (hn : n ≤ source.length) (hm : m ≤ source.length) (h : offsetOf source n = offsetOf source m) : n = m := by
  rcases Nat.lt_trichotomy n m with hlt | heq | hlt
  · exact absurd h (Nat.ne_of_lt (offsetOf_lt hlt hm))
  · exact heq
  · exact absurd h.symm (Nat.ne_of_lt (offsetOf_lt hlt hn))

/-- The boundaries between characters are the offsets behind the first of them. -/
theorem isValid_iff_offsetOf {offset : Nat} :
    String.Pos.Raw.IsValid source ⟨offset⟩ ↔ ∃ n ≤ source.length, offset = offsetOf source n := by
  rw [String.Pos.Raw.isValid_iff_exists_take_toList]
  constructor
  · rintro ⟨n, hn⟩
    rcases Nat.le_total n source.length with hle | hle
    · exact ⟨n, hle, hn⟩
    · refine ⟨source.length, Nat.le_refl _, hn.trans ?_⟩
      rw [List.take_of_length_le (by rwa [String.length_toList]), String.ofList_toList, offsetOf_length]
  · rintro ⟨n, _, hn⟩
    exact ⟨n, hn⟩

end

namespace Position

/-! ## Moving on to an offset -/

section

variable {p : Position} {offset : Nat}

/-- An offset that has been passed leads nowhere. -/
theorem advanceTo_of_le (h : offset ≤ p.offset) : p.advanceTo offset = p := by
  unfold advanceTo
  cases p.ahead.length with
  | zero => rfl
  | succ k => exact if_neg (Nat.not_lt.mpr h)

/-- At the end of the source there is nothing to read. -/
theorem next_end (h : p.ahead = []) : p.next = p := by
  unfold next
  rw [h]

/-- On the way to an offset the next character is read; at the end of the source there is none. -/
theorem advanceTo_next (h : p.offset < offset) : p.advanceTo offset = p.next.advanceTo offset := by
  cases hp : p.ahead with
  | nil => rw [next_end hp]
  | cons c after =>
    have hnext : p.next.ahead = after := by rw [ahead_next, hp, List.drop_one, List.tail_cons]
    rw [advanceTo, advanceTo, hp, hnext]
    exact if_pos h

theorem advanceTo_end (h : p.ahead = []) (offset : Nat) : p.advanceTo offset = p := by
  rw [advanceTo, h]
  rfl

/-- Of two offsets only the one further on counts. -/
theorem advanceTo_advanceTo (p : Position) (a b : Nat) : (p.advanceTo a).advanceTo b = p.advanceTo (max a b) := by
  generalize hcs : p.ahead = cs
  induction cs generalizing p with
  | nil => rw [advanceTo_end hcs, advanceTo_end hcs, advanceTo_end hcs]
  | cons c after ih =>
    by_cases ha : p.offset < a
    · rw [advanceTo_next ha, advanceTo_next (Nat.lt_of_lt_of_le ha (Nat.le_max_left a b))]
      exact ih p.next (by rw [ahead_next, hcs, List.drop_one, List.tail_cons])
    · rw [advanceTo_of_le (Nat.not_lt.mp ha)]
      rcases Nat.le_total a b with hab | hab
      · rw [Nat.max_eq_right hab]
      · rw [Nat.max_eq_left hab, advanceTo_of_le (Nat.not_lt.mp ha), advanceTo_of_le (by omega)]

end

/-! ## The positions of a source -/

section

variable {source : String} {n m : Nat}

/-- The start of a source is behind none of its characters. -/
theorem start_eq_reached (source : String) : start source = reached source 0 := rfl

/-- The next character is read from one position of a source to the next one. -/
theorem next_reached (h : n < source.length) : (reached source n).next = reached source (n + 1) := by
  obtain ⟨c, after, hdrop⟩ : ∃ c after, source.toList.drop n = c :: after :=
    ⟨_, _, List.drop_eq_getElem_cons (by rwa [String.length_toList])⟩
  have hat : source.toList[n]? = some c := by rw [← List.head?_drop, hdrop, List.head?_cons]
  have hafter : source.toList.drop (n + 1) = after := by rw [← List.tail_drop, hdrop, List.tail_cons]
  have hnext : source.toList[n + 1]? = after.head? := by rw [← List.head?_drop, hafter]
  -- the line feed is looked for among the characters to come, and stands in the source
  have hends : endsLineAt source.toList n = endsLine c after := by simp [endsLineAt, endsLine, hat, hnext]
  simp only [next, reached, hdrop, hafter, take_succ_of_drop hdrop, offsetOf_succ hdrop, lineEnds_succ, hends]
  refine Position.mk.injEq .. |>.mpr ⟨by simp, rfl, rfl, ?_⟩
  split <;> omega

theorem next_reached_length (source : String) : (reached source source.length).next = reached source source.length := by
  have hend : source.toList.drop source.length = [] := by rw [← String.length_toList, List.drop_length]
  exact next_end hend

/-- On the way to an offset every character in front of it is read, and no other. -/
theorem approach_reached (offset k : Nat) (h : n + k ≤ source.length) :
    ∃ m, n ≤ m ∧ m ≤ n + k ∧ approach offset k (reached source n) = reached source m ∧
      (∀ i, n ≤ i → i < m → offsetOf source i < offset) ∧ (m = n + k ∨ offset ≤ offsetOf source m) := by
  induction k generalizing n with
  | zero => exact ⟨n, Nat.le_refl _, Nat.le_refl _, rfl, fun i _ _ => by omega, Or.inl rfl⟩
  | succ k ih =>
    by_cases hlt : offsetOf source n < offset
    · obtain ⟨m, hnm, hmk, heq, hbefore, hstop⟩ := ih (n := n + 1) (by omega)
      refine ⟨m, by omega, by omega, ?_, fun i hi him => ?_, hstop.imp_left (by omega)⟩
      · rw [← heq, ← next_reached (by omega)]
        exact if_pos hlt
      · rcases Nat.eq_or_lt_of_le hi with rfl | hi
        · exact hlt
        · exact hbefore i hi him
    · exact ⟨n, Nat.le_refl _, Nat.le_add_right _ _, if_neg hlt, fun i _ _ => by omega, Or.inr (Nat.not_lt.mp hlt)⟩

/-- Moving on to an offset reads every character in front of it, as far as the source goes. -/
theorem advanceTo_reached (offset : Nat) (h : n ≤ source.length) :
    ∃ m, n ≤ m ∧ m ≤ source.length ∧ (reached source n).advanceTo offset = reached source m ∧
      (∀ i, n ≤ i → i < m → offsetOf source i < offset) ∧ (m = source.length ∨ offset ≤ offsetOf source m) := by
  have hlength : (reached source n).ahead.length = source.length - n := by simp [reached, String.length_toList]
  have hend : n + (source.length - n) = source.length := Nat.add_sub_cancel' h
  have happroach := approach_reached offset (source.length - n) (Nat.le_of_eq hend)
  rw [hend] at happroach
  rwa [advanceTo, hlength]

/-- A move leads from a position of a source to one that is not in front of it. -/
theorem perform_reached (move : Move) (h : n ≤ source.length) :
    ∃ m, n ≤ m ∧ m ≤ source.length ∧ ((reached source n).perform move).2 = reached source m := by
  cases move with
  | peek => exact ⟨n, Nat.le_refl _, h, rfl⟩
  | consume =>
    rcases Nat.lt_or_eq_of_le h with hlt | rfl
    · exact ⟨n + 1, Nat.le_succ n, hlt, next_reached hlt⟩
    · exact ⟨source.length, Nat.le_refl _, h, next_reached_length source⟩
  | advanceTo offset =>
    obtain ⟨m, hnm, hm, heq, _⟩ := advanceTo_reached offset h
    exact ⟨m, hnm, hm, heq⟩

/-- A row of moves leads on from one position of a source to another. -/
theorem run_reached (moves : List Move) (h : n ≤ source.length) :
    ∃ m, n ≤ m ∧ m ≤ source.length ∧ (reached source n).run moves = reached source m := by
  induction moves generalizing n with
  | nil => exact ⟨n, Nat.le_refl _, h, rfl⟩
  | cons move moves ih =>
    obtain ⟨m, hnm, hm, heq⟩ := perform_reached move h
    obtain ⟨k, hmk, hk, heq'⟩ := ih hm
    refine ⟨k, Nat.le_trans hnm hmk, hk, ?_⟩
    rw [run, List.foldl_cons, heq]
    exact heq'

/-- What holds at the start of a source and is kept up by reading a character holds wherever a row of moves leads. -/
theorem run_induct {motive : Position → Prop} (hstart : motive (start source))
    (hnext : ∀ p, motive p → motive p.next) (moves : List Move) : motive ((start source).run moves) := by
  have hreached : ∀ n ≤ source.length, motive (reached source n) := by
    intro n
    induction n with
    | zero => exact fun _ => hstart
    | succ n ih =>
      intro hn
      rw [← next_reached hn]
      exact hnext _ (ih (Nat.le_of_lt hn))
  obtain ⟨n, _, hn, heq⟩ := run_reached moves (Nat.zero_le source.length)
  rw [start_eq_reached, heq]
  exact hreached n hn

/-- The boundaries that have not been passed and lie at or behind an offset, or at the end of the source if the offset lies beyond it. -/
def stops (source : String) (p : Position) (offset : Nat) : Set Nat :=
  {o | String.Pos.Raw.IsValid source ⟨o⟩ ∧ p.offset ≤ o ∧ min offset source.utf8ByteSize ≤ o}

/-- Moving on to an offset stops at the first boundary from there on: behind the character that the offset is in, or at the end. -/
theorem isLeast_advanceTo (offset : Nat) (h : n ≤ source.length) :
    IsLeast (stops source (reached source n) offset) ((reached source n).advanceTo offset).offset := by
  obtain ⟨m, hnm, hm, heq, hbefore, hstop⟩ := advanceTo_reached offset h
  have hsize := offsetOf_le hm (Nat.le_refl source.length)
  rw [offsetOf_length] at hsize
  rw [heq]
  refine ⟨⟨isValid_iff_offsetOf.mpr ⟨m, hm, rfl⟩, offsetOf_le hnm hm, ?_⟩, ?_⟩
  · show min offset source.utf8ByteSize ≤ offsetOf source m
    rcases hstop with rfl | hstop
    · rw [offsetOf_length]
      exact Nat.min_le_right _ _
    · exact Nat.le_trans (Nat.min_le_left _ _) hstop
  · rintro o ⟨hvalid, hpassed, hwanted⟩
    obtain ⟨i, hi, rfl⟩ := isValid_iff_offsetOf.mp hvalid
    have hpassed : offsetOf source n ≤ offsetOf source i := hpassed
    show offsetOf source m ≤ offsetOf source i
    rcases Nat.le_total m i with hmi | him
    · exact offsetOf_le hmi hi
    -- a boundary on the way lies in front of the offset, so only the end of the source could be wanted there
    have hni : n ≤ i := Nat.le_of_not_lt fun hlt => Nat.not_lt.mpr hpassed (offsetOf_lt hlt h)
    rcases Nat.eq_or_lt_of_le him with rfl | him
    · exact Nat.le_refl _
    have hlt := hbefore i hni him
    omega

end

/-- Where a row of moves leads from the start of a source. The offset is a boundary between characters, and no further move leads
back. The position is the one behind the first `n` characters: the offset is the number of their bytes, the line is one more than
the number of line ends among them, and the character behind them is seen. Looking changes nothing. The offset alone tells the
position, of two offsets to move on to only the one further on counts, and one that is no boundary is rounded up. -/
theorem run_reaches (source : String) (moves : List Move) :
    let p := (start source).run moves
    String.Pos.Raw.IsValid source ⟨p.offset⟩ ∧ p.offset ≤ source.utf8ByteSize ∧ (∀ move, p.offset ≤ (p.perform move).2.offset) ∧
      (∃ n ≤ source.length, p.offset = offsetOf source n ∧ p.line = 1 + lineEnds source.toList n ∧ p.peek = source.toList[n]?) ∧
      p.perform .peek = (p.peek, p) ∧
      (∀ moves', ((start source).run moves').offset = p.offset → (start source).run moves' = p) ∧
      (∀ a b, (p.advanceTo a).advanceTo b = p.advanceTo (max a b)) ∧ ∀ a, IsLeast (stops source p a) (p.advanceTo a).offset := by
  intro p
  obtain ⟨n, _, hn, hp⟩ := run_reached moves (Nat.zero_le source.length)
  have hp : p = reached source n := hp
  have hsize := offsetOf_le hn (Nat.le_refl source.length)
  rw [offsetOf_length] at hsize
  rw [hp]
  refine ⟨isValid_iff_offsetOf.mpr ⟨n, hn, rfl⟩, hsize, fun move => ?_, ⟨n, hn, rfl, rfl, List.head?_drop⟩, rfl,
    fun moves' hoffset => ?_, advanceTo_advanceTo _, fun a => isLeast_advanceTo a hn⟩
  · obtain ⟨m, hnm, hm, heq⟩ := perform_reached move hn
    rw [heq]
    exact offsetOf_le hnm hm
  · obtain ⟨m, _, hm, heq⟩ := run_reached moves' (Nat.zero_le source.length)
    rw [start_eq_reached, heq] at hoffset ⊢
    rw [offsetOf_inj hm hn hoffset]

end Position

end Offside
