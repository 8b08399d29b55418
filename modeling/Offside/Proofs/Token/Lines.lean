import Offside.Proofs.Token.Join

/-!
# The lines of a source

`splitLines` cuts a text into its lines, without a position and without counting. A position stands *within* the lines of its source if
the lines it has counted are those above it, and the line it is on goes on where it stands. Reading keeps this up, except between a
carriage return and the line feed behind it, where the line that the pair ends is neither gone on with nor counted yet.

No lexeme ends between the two, so every item of a stream, and the end of the input too, points at a line of the source
(`TokenStream.ofSource_ordered`).
-/

namespace Offside

/-- The lines of a text. A carriage return and a line feed end one line together, and each of them ends one on its own. -/
def splitLines : List Char → List (List Char)
  | [] => [[]]
  | '\r' :: '\n' :: cs => [] :: splitLines cs
  | c :: cs => if isTerminator c then [] :: splitLines cs else (splitLines cs).modifyHead (c :: ·)

/-- The characters up to the end of the line. -/
def lineFront (cs : List Char) : List Char := cs.takeWhile fun c => !isTerminator c

section

variable {c : Char} {cs : List Char}

/-- Nothing of a line is in front of its end. -/
theorem lineFront_terminator (h : isTerminator c = true) : lineFront (c :: cs) = [] := by
  simp [lineFront, h]

/-- A character that ends no line belongs to the line it stands in. -/
theorem lineFront_char (h : isTerminator c = false) : lineFront (c :: cs) = c :: lineFront cs := by
  simp [lineFront, h]

/-- A terminator ends a line unless it is a carriage return in front of a line feed. -/
theorem Position.endsLine_iff :
    endsLine c cs = true ↔ isTerminator c = true ∧ (c = '\r' → cs.head? ≠ some '\n') := by
  unfold endsLine isTerminator
  by_cases hreturn : c = '\r'
  · subst hreturn
    simp
  · simp [hreturn]

/-- A character that ends no line belongs to the first of the lines. -/
theorem splitLines_char (h : isTerminator c = false) : splitLines (c :: cs) = (splitLines cs).modifyHead (c :: ·) := by
  rw [splitLines, if_neg (by simp [h])]
  rintro _ rfl
  cases h

/-- A line ends where a character ends it, and the others are behind. -/
theorem splitLines_ends (h : Position.endsLine c cs = true) : splitLines (c :: cs) = [] :: splitLines cs := by
  obtain ⟨hc, hcs⟩ := Position.endsLine_iff.mp h
  rw [splitLines, if_pos hc]
  rintro _ rfl rfl
  exact hcs rfl rfl

/-- The first line of a text is what stands before the first terminator. -/
theorem head?_splitLines (cs : List Char) : (splitLines cs).head? = some (lineFront cs) := by
  fun_induction splitLines cs with
  | case1 => rfl
  | case2 => rfl
  | case3 c cs _ hc => rw [lineFront_terminator hc, List.head?_cons]
  | case4 c cs _ hc ih => rw [lineFront_char (by simpa using hc), List.head?_modifyHead, ih, Option.map_some]

/-- Behind a line feed there is another line. -/
theorem two_le_length_splitLines {cs : List Char} (h : cs.getLast? = some '\n') : 2 ≤ (splitLines cs).length := by
  have hpos : ∀ cs : List Char, 1 ≤ (splitLines cs).length := by
    intro cs
    have hhead := head?_splitLines cs
    cases hlines : splitLines cs with
    | nil => simp [hlines] at hhead
    | cons => simp
  fun_induction splitLines cs with
  | case1 => cases h
  | case2 cs => exact Nat.succ_le_succ (hpos cs)
  | case3 c cs => exact Nat.succ_le_succ (hpos cs)
  | case4 c cs _ hc ih =>
    rw [List.length_modifyHead]
    cases cs with
    | nil =>
      cases h
      exact absurd rfl hc
    | cons d cs => exact ih (by rwa [List.getLast?_cons_cons] at h)

end

/-- A place points at a line by its number and its text. -/
def Place.PointsAt (lines : List (List Char)) (place : Place) : Prop :=
  1 ≤ place.line ∧ place.line ≤ lines.length ∧ (lines.map String.ofList)[place.line - 1]? = some place.text

namespace Position

/-- What has been read of the line. -/
def lineBehind (p : Position) : List Char := (lineFront p.behind).reverse

/-- A position stands within lines: those above it have been counted, and the one it is on goes on where it stands. -/
def Within (lines : List (List Char)) (p : Position) : Prop :=
  ∃ above, lines = above ++ (splitLines p.ahead).modifyHead (p.lineBehind ++ ·) ∧ p.line = above.length + 1

namespace Within

variable {lines : List (List Char)} {p : Position} {c : Char} {after : List Char}

/-- The start of a source is within its lines. -/
theorem start (source : String) : Within (splitLines source.toList) (.start source) :=
  ⟨[], (congrFun List.modifyHead_id _).symm, rfl⟩

/-- A position at the beginning of a line. -/
theorem opens (above : List (List Char)) (line : List Char) (hlines : lines = above ++ line :: splitLines p.ahead)
    (hbehind : p.lineBehind = []) (hline : p.line = above.length + 2) : Within lines p := by
  refine ⟨above ++ [line], ?_, ?_⟩
  · rw [hlines, hbehind, List.append_assoc, List.singleton_append]
    exact congrArg (above ++ line :: ·) (congrFun List.modifyHead_id _).symm
  · rw [hline, List.length_append]
    rfl

/-- The place of a position is the line that it stands on. -/
theorem pointsAt (h : Within lines p) : p.place.PointsAt lines := by
  obtain ⟨above, hlines, hline⟩ := h
  obtain ⟨below, hbelow⟩ := List.head?_eq_some_iff.mp (head?_splitLines p.ahead)
  have hplace : p.place = ⟨above.length + 1, String.ofList (p.lineBehind ++ lineFront p.ahead)⟩ := by
    rw [← hline]
    rfl
  rw [hplace, hlines, hbelow, List.modifyHead_cons]
  refine ⟨Nat.le_add_left _ _, ?_, ?_⟩
  · simp
  · simp

/-- The lines from a position on. -/
theorem length_eq (h : Within lines p) : lines.length + 1 = p.line + (splitLines p.ahead).length := by
  obtain ⟨above, hlines, hline⟩ := h
  rw [hlines, hline, List.length_append, List.length_modifyHead]
  omega

/-! ## Reading on -/

/-- A character of the line. -/
theorem char (h : Within lines p) (hp : p.ahead = c :: after) (hc : isTerminator c = false) : Within lines p.next := by
  obtain ⟨above, hlines, hline⟩ := h
  have hends : endsLine c after = false := by
    rw [Bool.eq_false_iff]
    exact fun hends => by rw [(endsLine_iff.mp hends).1] at hc; cases hc
  refine ⟨above, ?_, ?_⟩
  · -- the character goes over from what is to come of the line to what has been read of it
    rw [hlines, hp, splitLines_char hc, List.modifyHead_modifyHead]
    simp [next, hp, lineBehind, lineFront_char hc, Function.comp_def]
  · simp [next, hp, hends, hline]

/-- A character that ends the line on its own. -/
theorem ends (h : Within lines p) (hp : p.ahead = c :: after) (hc : endsLine c after = true) : Within lines p.next := by
  obtain ⟨above, hlines, hline⟩ := h
  rw [hp, splitLines_ends hc, List.modifyHead_cons] at hlines
  refine opens above (p.lineBehind ++ []) ?_ ?_ ?_
  · simpa [next, hp] using hlines
  · simp [next, hp, lineBehind, lineFront_terminator (endsLine_iff.mp hc).1]
  · simp [next, hp, hc, hline]

/-- A carriage return and a line feed are read as one. -/
theorem pair (h : Within lines p) (hp : p.ahead = '\r' :: '\n' :: after) : Within lines p.next.next := by
  obtain ⟨above, hlines, hline⟩ := h
  rw [hp, splitLines, List.modifyHead_cons] at hlines
  refine opens above (p.lineBehind ++ []) ?_ ?_ ?_
  · simpa [next, hp] using hlines
  · simp [next, hp, lineBehind, lineFront, isTerminator]
  · simp [next, hp, hline, endsLine]

/-- Reading a piece of text that does not end between a carriage return and a line feed. -/
theorem skip {text rest : List Char} (h : Within lines p) (hp : p.ahead = text ++ rest)
    (hcut : text.getLast? = some '\r' → rest.head? ≠ some '\n') : Within lines (p.skip text.length) := by
  have htail : ∀ {c : Char} {cs : List Char}, cs.getLast? = some '\r' → (c :: cs).getLast? = some '\r' := by
    intro c cs hlast
    rw [List.getLast?_cons, hlast]
    rfl
  -- the recursion is that of `splitLines`, which takes a pair in one step
  induction text using splitLines.induct generalizing p with
  | case1 => exact h
  | case2 cs ih =>
    refine ih (h.pair hp) ?_ fun hlast => hcut (htail (htail hlast))
    rw [ahead_next, ahead_next, hp]
    rfl
  | case3 c cs hpair hc ih =>
    have hends : endsLine c (cs ++ rest) = true := by
      refine endsLine_iff.mpr ⟨hc, fun hreturn hhead => ?_⟩
      cases cs with
      | nil => exact hcut (by rw [hreturn]; rfl) hhead
      | cons d cs => exact hpair cs hreturn (by rw [Option.some.inj hhead])
    refine ih (h.ends hp hends) ?_ fun hlast => hcut (htail hlast)
    rw [ahead_next, hp]
    rfl
  | case4 c cs hpair hc ih =>
    refine ih (h.char hp (by simpa using hc)) ?_ fun hlast => hcut (htail hlast)
    rw [ahead_next, hp]
    rfl

end Within

end Position

/-- No lexeme ends between a carriage return and a line feed. -/
theorem Lexeme.first_whole (c : Char) (after : List Char) (hlast : (first c after).chars.getLast? = some '\r') :
    ((c :: after).drop (first c after).chars.length).head? ≠ some '\n' := by
  cases hc : isSeparator c with
  | false =>
    have hreturn := not_terminator_of_mem_first hc after _ (List.mem_of_getLast? hlast)
    cases hreturn
  | true =>
    -- a run of separators goes on with a line feed
    rw [first_separator hc]
    intro hhead
    have hdrop : (c :: after).drop (c :: after.takeWhile isSeparator).length = after.dropWhile isSeparator := by
      have hsplit := List.takeWhile_append_dropWhile (p := isSeparator) (l := after)
      have hleft := congrArg (List.drop (after.takeWhile isSeparator).length) hsplit
      rw [List.drop_left] at hleft
      exact hleft.symm
    have hfeed := List.head?_dropWhile_not isSeparator after
    rw [← hdrop, hhead] at hfeed
    cases hfeed

/-- Positions within the lines of a source, none of them on a line above the one before. -/
structure Ordered (lines : List (List Char)) (ps : List Position) : Prop where
  within : ∀ p ∈ ps, p.Within lines
  sorted : ps.Pairwise (·.line ≤ ·.line)

namespace Ordered

variable {lines : List (List Char)} {p q : Position} {ps qs : List Position}

theorem head (h : Ordered lines (p :: ps)) : p.Within lines := h.within p List.mem_cons_self

/-- A position within the lines, no further down than the next one, keeps positions in order. -/
theorem cons (hp : p.Within lines) (hle : p.line ≤ q.line) (h : Ordered lines (q :: ps)) : Ordered lines (p :: q :: ps) where
  within := List.forall_mem_cons.mpr ⟨hp, h.within⟩
  sorted := by
    refine List.pairwise_cons.mpr ⟨List.forall_mem_cons.mpr ⟨hle, fun r hr => ?_⟩, h.sorted⟩
    exact Nat.le_trans hle ((List.pairwise_cons.mp h.sorted).1 r hr)

/-- Positions in order stay so when some are left out. -/
theorem sublist (h : Ordered lines qs) (hps : ps.Sublist qs) : Ordered lines ps :=
  ⟨fun p hp => h.within p (hps.subset hp), h.sorted.sublist hps⟩

/-- Another first position, further up. -/
theorem earlier (hp : p.Within lines) (hle : p.line ≤ q.line) (h : Ordered lines (q :: ps)) : Ordered lines (p :: ps) :=
  (h.cons hp hle).sublist ((List.sublist_cons_self q ps).cons_cons p)

/-- The first position once more. -/
theorem again (h : Ordered lines (p :: ps)) : Ordered lines (p :: p :: ps) :=
  h.cons h.head (Nat.le_refl _)

end Ordered

namespace TokenStream

open Lexeme

/-- Where the items of a stream begin, and its end. -/
def positions (s : TokenStream) : List Position := s.items.map (·.position) ++ [s.finish]

/-- The positions of a stream follow the one it is read from, on lines that do not go back. -/
theorem ofPosition_ordered {lines : List (List Char)} {p : Position} (h : p.Within lines) :
    Ordered lines (p :: (ofPosition p).positions) := by
  induction p using inductAhead with
  | ended p hp =>
    rw [ofPosition_nil hp]
    exact Ordered.again ⟨List.forall_mem_singleton.mpr h, List.pairwise_singleton _ _⟩
  | lexeme p c after hp ih =>
    have hskip := h.skip (first_append_skip hp) (by rw [Position.ahead_skip, hp]; exact first_whole c after)
    have hrest := (ih hskip).earlier h (Position.line_le_skip _ p)
    rw [ofPosition_cons hp]
    cases (first c after).isTrivia with
    | true => exact hrest
    | false => exact hrest.again

/-- The items of a source stand within its lines, in order. -/
theorem ofSource_ordered (source : String) :
    Ordered (splitLines source.toList) (.start source :: (ofSource source).positions) :=
  ofPosition_ordered (.start source)

/-- Whatever a stream yields begins at one of its positions. -/
theorem answer_position_mem (n : Nat) (s : TokenStream) : (s.answer n).position ∈ s.positions := by
  induction n generalizing s with
  | zero =>
    obtain ⟨items, finish, size, hsize⟩ := s
    cases items with
    | nil => exact List.mem_cons_self
    | cons i is => exact List.mem_cons_self
  | succ n ih =>
    obtain ⟨items, finish, size, hsize⟩ := s
    cases items with
    | nil => exact ih _
    | cons i is => exact List.mem_cons_of_mem _ (ih ⟨is, finish, size - 1, _⟩)

/-- An item stands in front of the rest of the text, and behind the last item the text is over. -/
theorem ofPosition_ahead (p : Position) :
    (∀ i ∈ (ofPosition p).items, i.position.ahead ≠ [] ∧ i.position.ahead <:+ p.ahead) ∧ (ofPosition p).finish.ahead = [] := by
  induction p using inductAhead with
  | ended p hp =>
    rw [ofPosition_nil hp]
    exact ⟨fun _ hi => absurd hi List.not_mem_nil, hp⟩
  | lexeme p c after hp ih =>
    obtain ⟨hitems, hfinish⟩ := ih
    have hskip : ∀ i ∈ (ofPosition (p.skip (first c after).chars.length)).items,
        i.position.ahead ≠ [] ∧ i.position.ahead <:+ p.ahead := by
      intro i hi
      refine ⟨(hitems i hi).1, (hitems i hi).2.trans ?_⟩
      rw [Position.ahead_skip]
      exact List.drop_suffix _ _
    refine ⟨?_, by rwa [finish_cons hp]⟩
    rw [ofPosition_cons hp]
    cases (first c after).isTrivia with
    | true => exact hskip
    | false => exact List.forall_mem_cons.mpr ⟨⟨by simp [hp], List.suffix_rfl⟩, hskip⟩

/-- In a source that ends in a line feed the last line is the one behind it. No item stands there, and the end of the input does. -/
theorem ofSource_last_line {source : String} (h : source.toList.getLast? = some '\n') :
    (∀ p ∈ Position.start source :: (ofSource source).items.map (·.position), p.line < (splitLines source.toList).length) ∧
      (ofSource source).finish.line = (splitLines source.toList).length := by
  obtain ⟨hitems, hfinish⟩ := ofPosition_ahead (.start source)
  have hwithin := (ofSource_ordered source).within
  have hbefore : ∀ p : Position, p.Within (splitLines source.toList) → p.ahead ≠ [] → p.ahead <:+ source.toList →
      p.line < (splitLines source.toList).length := by
    rintro p hp hne ⟨front, hsplit⟩
    have hlast : p.ahead.getLast? = some '\n' := by
      rwa [← hsplit, List.getLast?_append, Option.or_of_isSome (by simpa using hne)] at h
    have hlines := hp.length_eq
    have hmore := two_le_length_splitLines hlast
    omega
  refine ⟨List.forall_mem_cons.mpr ⟨?_, fun p hp => ?_⟩, ?_⟩
  · have hne : source.toList ≠ [] := fun hnil => by simp [hnil] at h
    exact hbefore _ (.start source) hne List.suffix_rfl
  · obtain ⟨i, hi, rfl⟩ := List.mem_map.mp hp
    exact hbefore _ (hwithin _ (List.mem_cons_of_mem _ (List.mem_append_left _ hp))) (hitems i hi).1 (hitems i hi).2
  · have hmem : (ofSource source).finish ∈ Position.start source :: (ofSource source).positions := by simp [positions]
    have hlines := (hwithin _ hmem).length_eq
    have hone : (splitLines (ofSource source).finish.ahead).length = 1 := congrArg (fun cs => (splitLines cs).length) hfinish
    omega

end TokenStream

end Offside
