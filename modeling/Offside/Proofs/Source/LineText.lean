import Offside.Proofs.Source.Moves
import Offside.Proofs.Token.Lines

/-!
# The line around a position

`sourceLines` cuts a text into lines that keep their terminators, so that every position of the text stands on one of them: a position
in front of a terminator, or between the two characters of one, stands on the line that the terminator ends.

Two ways to tell the line are compared with this. The number is counted on the way, and a line is counted with the last character of its
terminator and nowhere else (`CutBefore.endsLine_iff`), so it is right at every position. The text is looked for from the position
outwards, and every terminator stops the search. That finds the line, except between a carriage return and its line feed, where it finds
nothing.

Main statement: the line and the text where a row of moves leads (`Position.run_lineText`).
-/

namespace Offside

/-- What ends a line. -/
inductive Terminator where
  | lineFeed
  | carriageReturn
  /-- A carriage return and the line feed that follows it. -/
  | pair
deriving DecidableEq, Repr

/-- The characters of a terminator. -/
def Terminator.chars : Terminator → List Char
  | lineFeed => ['\n']
  | carriageReturn => ['\r']
  | pair => ['\r', '\n']

/-- A line of a text with its terminator, which only the last line lacks. -/
structure SourceLine where
  text : List Char
  terminator : Option Terminator
deriving DecidableEq, Repr

namespace SourceLine

/-- The characters of the terminator. -/
def ending (line : SourceLine) : List Char := line.terminator.elim [] Terminator.chars

/-- All characters of a line. -/
def chars (line : SourceLine) : List Char := line.text ++ line.ending

/-- A line with one more character in front. -/
def push (c : Char) (line : SourceLine) : SourceLine := { line with text := c :: line.text }

end SourceLine

/-- The lines of a text with their terminators. -/
def sourceLines : List Char → List SourceLine
  | [] => [⟨[], none⟩]
  | '\r' :: '\n' :: cs => ⟨[], some .pair⟩ :: sourceLines cs
  | '\r' :: cs => ⟨[], some .carriageReturn⟩ :: sourceLines cs
  | '\n' :: cs => ⟨[], some .lineFeed⟩ :: sourceLines cs
  | c :: cs => (sourceLines cs).modifyHead (·.push c)

/-- A line is cut off rightly in front of the lines below it: its text has no terminator in it, it has one itself unless it is the last
line, and a line feed behind a carriage return is not cut off from it. -/
structure CutBefore (line : SourceLine) (below : List SourceLine) : Prop where
  plain : ∀ c ∈ line.text, isTerminator c = false
  last : line.terminator = none ↔ below = []
  lone : line.terminator = some .carriageReturn → (below.flatMap SourceLine.chars).head? ≠ some '\n'

/-- Every line is cut off rightly. -/
def WellCut : List SourceLine → Prop
  | [] => True
  | line :: below => CutBefore line below ∧ WellCut below

/-! ## Cutting a text into lines -/

section

variable {c : Char} {cs : List Char} {t : Terminator} {line : SourceLine} {above below : List SourceLine}

/-- A terminator has a character at least. -/
theorem SourceLine.ending_eq_nil (h : line.ending = []) : line.terminator = none := by
  cases ht : line.terminator with
  | none => rfl
  | some t =>
    rw [ending, ht] at h
    cases t <;> cases h

/-- Only the carriage return and the line feed end lines. -/
theorem isTerminator_eq_false (hreturn : c ≠ '\r') (hfeed : c ≠ '\n') : isTerminator c = false := by
  simp [isTerminator, hreturn, hfeed]

theorem head?_ne_of_forall_cons (h : ∀ rest, cs ≠ c :: rest) : cs.head? ≠ some c := by
  intro hhead
  obtain ⟨rest, hrest⟩ := List.head?_eq_some_iff.mp hhead
  exact h rest hrest

/-- There is always a line, if only an empty one. -/
theorem exists_sourceLines_eq_cons (cs : List Char) : ∃ line below, sourceLines cs = line :: below := by
  fun_induction sourceLines cs with
  | case1 => exact ⟨_, _, rfl⟩
  | case2 => exact ⟨_, _, rfl⟩
  | case3 => exact ⟨_, _, rfl⟩
  | case4 => exact ⟨_, _, rfl⟩
  | case5 c cs _ _ _ ih =>
    obtain ⟨line, below, heq⟩ := ih
    exact ⟨line.push c, below, by rw [heq, List.modifyHead_cons]⟩

/-- Without their terminators they are the lines of the text. -/
theorem map_text_sourceLines (cs : List Char) : (sourceLines cs).map (·.text) = splitLines cs := by
  fun_induction sourceLines cs with
  | case1 => rfl
  | case2 cs ih => rw [splitLines, List.map_cons, ih]
  | case3 cs hfeed ih =>
    have hends : Position.endsLine '\r' cs = true := Position.endsLine_iff.mpr ⟨rfl, fun _ => head?_ne_of_forall_cons hfeed⟩
    rw [splitLines_ends hends, List.map_cons, ih]
  | case4 cs ih => rw [splitLines_ends rfl, List.map_cons, ih]
  | case5 c cs _ hreturn hfeed ih =>
    obtain ⟨line, below, heq⟩ := exists_sourceLines_eq_cons cs
    rw [splitLines_char (isTerminator_eq_false hreturn hfeed), ← ih, heq]
    rfl

/-- With their terminators they make up the text. -/
theorem flatMap_chars_sourceLines (cs : List Char) : (sourceLines cs).flatMap SourceLine.chars = cs := by
  fun_induction sourceLines cs with
  | case1 => rfl
  | case2 cs ih => exact congrArg ('\r' :: '\n' :: ·) ih
  | case3 cs _ ih => exact congrArg ('\r' :: ·) ih
  | case4 cs ih => exact congrArg ('\n' :: ·) ih
  | case5 c cs _ _ _ ih =>
    obtain ⟨line, below, heq⟩ := exists_sourceLines_eq_cons cs
    rw [heq] at ih ⊢
    exact congrArg (c :: ·) ih

/-- An empty line with a terminator may stand above the lines of a text. -/
theorem CutBefore.terminated (h : t = .carriageReturn → cs.head? ≠ some '\n') : CutBefore ⟨[], some t⟩ (sourceLines cs) := by
  obtain ⟨first, below, heq⟩ := exists_sourceLines_eq_cons cs
  refine ⟨fun _ hc => absurd hc List.not_mem_nil, by simp [heq], fun ht => ?_⟩
  rw [flatMap_chars_sourceLines]
  exact h (Option.some.inj ht)

/-- A character of the line in front changes nothing about where it ends. -/
theorem CutBefore.push (h : CutBefore line below) (hc : isTerminator c = false) : CutBefore (line.push c) below :=
  ⟨List.forall_mem_cons.mpr ⟨hc, h.plain⟩, h.last, h.lone⟩

/-- The lines of a text are cut off rightly. -/
theorem wellCut_sourceLines (cs : List Char) : WellCut (sourceLines cs) := by
  fun_induction sourceLines cs with
  | case1 => exact ⟨⟨by simp, by simp, by simp⟩, trivial⟩
  | case2 cs ih => exact ⟨.terminated (by simp), ih⟩
  | case3 cs hfeed ih => exact ⟨.terminated fun _ => head?_ne_of_forall_cons hfeed, ih⟩
  | case4 cs ih => exact ⟨.terminated (by simp), ih⟩
  | case5 c cs _ hreturn hfeed ih =>
    obtain ⟨line, below, heq⟩ := exists_sourceLines_eq_cons cs
    rw [heq] at ih ⊢
    exact ⟨ih.1.push (isTerminator_eq_false hreturn hfeed), ih.2⟩

/-- Among lines that are cut off rightly, every single one is. -/
theorem WellCut.cutBefore (h : WellCut (above ++ line :: below)) : CutBefore line below := by
  induction above with
  | nil => exact h.1
  | cons _ above ih => exact ih h.2

end

/-! ## Where a line ends -/

section

variable {c : Char} {read unread rest : List Char} {t : Terminator} {line : SourceLine} {below : List SourceLine}

/-- Of the characters of a terminator the last one ends the line. -/
theorem Terminator.endsLine_iff (h : t.chars = read ++ c :: unread) (hlone : t = .carriageReturn → rest.head? ≠ some '\n') :
    Position.endsLine c (unread ++ rest) = true ↔ unread = [] := by
  cases t with
  | lineFeed =>
    obtain ⟨-, rfl, rfl⟩ : read = [] ∧ c = '\n' ∧ unread = [] := by simpa [chars, List.singleton_eq_append_iff] using h
    simp [Position.endsLine]
  | carriageReturn =>
    obtain ⟨-, rfl, rfl⟩ : read = [] ∧ c = '\r' ∧ unread = [] := by simpa [chars, List.singleton_eq_append_iff] using h
    simpa [Position.endsLine] using hlone rfl
  | pair =>
    cases read with
    | nil =>
      obtain ⟨rfl, rfl⟩ : '\r' = c ∧ ['\n'] = unread := List.cons.inj h
      simp [Position.endsLine]
    | cons d read =>
      obtain ⟨-, -, rfl, rfl⟩ : '\r' = d ∧ read = [] ∧ c = '\n' ∧ unread = [] := by
        simpa [chars, List.singleton_eq_append_iff] using h
      simp [Position.endsLine]

/-- A line is counted with a character of its terminator if that is the last one. -/
theorem CutBefore.endsLine_iff_of_ending (h : CutBefore line below) (hending : line.ending = read ++ c :: unread) :
    Position.endsLine c (unread ++ below.flatMap SourceLine.chars) = true ↔ unread = [] ∧ below ≠ [] := by
  cases ht : line.terminator with
  | none => simp [SourceLine.ending, ht] at hending
  | some t =>
    have hbelow : below ≠ [] := fun hnil => by simpa [ht] using h.last.mpr hnil
    have hchars : t.chars = read ++ c :: unread := by simpa [SourceLine.ending, ht] using hending
    rw [Terminator.endsLine_iff hchars fun heq => h.lone (by rw [ht, heq])]
    exact (and_iff_left hbelow).symm

/-- A line is counted with the last character of its terminator, and with no other. -/
theorem CutBefore.endsLine_iff (h : CutBefore line below) (hchars : line.chars = read ++ c :: unread) :
    Position.endsLine c (unread ++ below.flatMap SourceLine.chars) = true ↔ unread = [] ∧ below ≠ [] := by
  rcases List.append_eq_append_iff.mp hchars with ⟨front, -, hending⟩ | ⟨front, htext, hending⟩
  · exact h.endsLine_iff_of_ending hending
  cases front with
  | nil => exact h.endsLine_iff_of_ending (show line.ending = [] ++ c :: unread from hending.symm)
  | cons d front =>
    obtain ⟨rfl, rfl⟩ := List.cons.inj hending
    have hc : isTerminator c = false := h.plain c (by simp [htext])
    constructor
    · intro hends
      rw [(Position.endsLine_iff.mp hends).1] at hc
      cases hc
    · rintro ⟨hunread, hbelow⟩
      have hnone := SourceLine.ending_eq_nil (List.append_eq_nil_iff.mp hunread).2
      exact absurd (h.last.mp hnone) hbelow

end

namespace Position

/-- A position between a carriage return and a line feed. -/
def splitsPair (p : Position) : Bool := p.behind.head? == some '\r' && p.ahead.head? == some '\n'

/-- A position stands on the line of a number: what has been read are the lines above and a part of the line and its terminator. There
is more of it to come, unless the line is the last one. -/
def StandsOn (lines : List SourceLine) (p : Position) (number : Nat) (line : SourceLine) : Prop :=
  ∃ above below read unread, lines = above ++ line :: below ∧ number = above.length + 1 ∧ line.chars = read ++ unread ∧
    p.behind.reverse = above.flatMap SourceLine.chars ++ read ∧ p.ahead = unread ++ below.flatMap SourceLine.chars ∧
    (unread = [] → below = [])

/-! ## Reading a character -/

section

variable {p : Position} {c : Char} {after : List Char}

theorem behind_next (h : p.ahead = c :: after) : p.next.behind = c :: p.behind := by
  unfold next
  rw [h]

theorem line_next (h : p.ahead = c :: after) : p.next.line = if endsLine c after then p.line + 1 else p.line := by
  unfold next
  rw [h]

end

/-! ## The number of the line -/

namespace StandsOn

variable {lines above below : List SourceLine} {line other : SourceLine} {p : Position} {number number' : Nat}

/-- At the beginning of a line there is more of the line to come, or it is the last one and empty. -/
theorem opens (above : List SourceLine) (hcut : WellCut (above ++ line :: below))
    (hbehind : p.behind.reverse = above.flatMap SourceLine.chars) (hahead : p.ahead = (line :: below).flatMap SourceLine.chars) :
    p.StandsOn (above ++ line :: below) (above.length + 1) line := by
  refine ⟨above, below, [], line.chars, rfl, rfl, rfl, by rw [hbehind, List.append_nil], hahead, fun hnil => ?_⟩
  exact hcut.cutBefore.last.mp (SourceLine.ending_eq_nil (List.append_eq_nil_iff.mp hnil).2)

/-- The start of a source stands on its first line. -/
theorem start (source : String) : ∃ line, (Position.start source).StandsOn (sourceLines source.toList) 1 line := by
  obtain ⟨line, below, heq⟩ := exists_sourceLines_eq_cons source.toList
  have hcut := wellCut_sourceLines source.toList
  have hahead := flatMap_chars_sourceLines source.toList
  rw [heq] at hcut hahead ⊢
  exact ⟨line, opens [] hcut rfl hahead.symm⟩

/-- The number goes on where the position leaves the line, and only there. -/
theorem next (hcut : WellCut lines) (h : p.StandsOn lines p.line line) : ∃ line', p.next.StandsOn lines p.next.line line' := by
  obtain ⟨above, below, read, unread, rfl, hnumber, hchars, hbehind, hahead, hlast⟩ := h
  cases unread with
  | nil =>
    have hend : p.ahead = [] := by rw [hahead, hlast rfl, List.flatMap_nil, List.append_nil]
    rw [next_end hend]
    exact ⟨line, above, below, read, [], rfl, hnumber, hchars, hbehind, hahead, hlast⟩
  | cons c unread =>
    rw [List.cons_append] at hahead
    have hread : p.next.behind.reverse = above.flatMap SourceLine.chars ++ (read ++ [c]) := by
      rw [behind_next hahead, List.reverse_cons, hbehind, List.append_assoc]
    have hrest : p.next.ahead = unread ++ below.flatMap SourceLine.chars := by
      rw [ahead_next, hahead, List.drop_one, List.tail_cons]
    have hends := hcut.cutBefore.endsLine_iff hchars
    rw [line_next hahead, hnumber]
    by_cases hleaves : unread = [] ∧ below ≠ []
    · -- the character was the last one of the line, and the position opens the line below
      rw [if_pos (hends.mpr hleaves)]
      obtain ⟨rfl, hbelow⟩ := hleaves
      obtain ⟨line', below, rfl⟩ := List.exists_cons_of_ne_nil hbelow
      rw [List.append_cons] at hcut ⊢
      have hopens := opens (above ++ [line]) hcut (p := p.next) (by simpa [hchars] using hread) hrest
      rw [List.length_append] at hopens
      exact ⟨line', hopens⟩
    · -- the character goes over to what has been read of the line
      rw [if_neg (hleaves ∘ hends.mp)]
      refine ⟨line, above, below, read ++ [c], unread, rfl, rfl, by rw [hchars, List.append_cons], hread, hrest, fun hnil => ?_⟩
      exact Decidable.of_not_not fun hbelow => hleaves ⟨hnil, hbelow⟩

/-- The number of a line is its place among the lines, counted from one. -/
theorem getElem? (h : p.StandsOn lines number line) : lines[number - 1]? = some line := by
  obtain ⟨above, below, _, _, rfl, rfl, _⟩ := h
  simp

/-- A line further down is not reached before all of the line, its terminator too, has been read. -/
theorem le (h : p.StandsOn lines number line) (h' : p.StandsOn lines number' other) : number' ≤ number := by
  obtain ⟨above, below, read, unread, rfl, rfl, hchars, hbehind, _, hlast⟩ := h
  obtain ⟨above', below', read', _, hlines, rfl, _, hbehind', _⟩ := h'
  rcases List.append_eq_append_iff.mp hlines with ⟨between, rfl, hrest⟩ | ⟨between, rfl, _⟩
  · cases between with
    | nil => simp
    | cons first between =>
      -- the line would have been read as a whole, with others below it
      obtain ⟨rfl, rfl⟩ := List.cons.inj hrest
      rw [hbehind', List.flatMap_append, List.append_assoc, List.append_cancel_left_eq, List.flatMap_cons, hchars] at hbehind
      have hunread : unread = [] := by
        have hlength := congrArg List.length hbehind
        simp only [List.length_append] at hlength
        exact List.length_eq_zero_iff.mp (by omega)
      exact absurd (hlast hunread) (by simp)
  · simp

/-- A position stands on one line only. -/
theorem unique (h : p.StandsOn lines number line) (h' : p.StandsOn lines number' other) : number = number' :=
  Nat.le_antisymm (h'.le h) (h.le h')

end StandsOn

/-- The number that a position has counted is that of a line it stands on. -/
theorem run_standsOn (source : String) (moves : List Move) :
    ∃ line, ((start source).run moves).StandsOn (sourceLines source.toList) ((start source).run moves).line line := by
  refine run_induct (motive := fun p => ∃ line, p.StandsOn (sourceLines source.toList) p.line line) (StandsOn.start source) ?_ moves
  rintro p ⟨line, h⟩
  exact h.next (wellCut_sourceLines source.toList)

/-! ## The text of the line -/

/-- The positions on the way through lines: those within them, and those between a carriage return and a line feed. -/
inductive Passes (lines : List (List Char)) : Position → Prop where
  | within {p : Position} (h : p.Within lines) : Passes lines p
  | split {p : Position} {after : List Char} (h : p.Within lines) (hp : p.ahead = '\r' :: '\n' :: after) : Passes lines p.next

/-- Reading a character leads into a pair, out of it, or along the lines. -/
theorem Passes.next {lines : List (List Char)} {p : Position} (h : Passes lines p) : Passes lines p.next := by
  cases h with
  | split h hp => exact .within (h.pair hp)
  | within h =>
    cases hp : p.ahead with
    | nil =>
      rw [next_end hp]
      exact .within h
    | cons c after =>
      by_cases hends : endsLine c after = true
      · exact .within (h.ends hp hends)
      cases hc : isTerminator c with
      | false => exact .within (h.char hp hc)
      | true =>
        -- a terminator that does not end the line is the first half of a pair
        have hpair : c = '\r' ∧ after.head? = some '\n' := by simpa [endsLine_iff, hc] using hends
        obtain ⟨after, rfl⟩ := List.head?_eq_some_iff.mp hpair.2
        exact .split h (by rw [hp, hpair.1])

/-- Outside of pairs the position is within the lines. -/
theorem Passes.within_of_not_splitsPair {lines : List (List Char)} {p : Position} (h : Passes lines p) (hp : p.splitsPair = false) :
    p.Within lines := by
  cases h with
  | within h => exact h
  | split h hq => simp [splitsPair, behind_next hq, ahead_next, hq] at hp

/-- A row of moves passes through the lines of the source. -/
theorem run_passes (source : String) (moves : List Move) : Passes (splitLines source.toList) ((start source).run moves) :=
  run_induct (motive := Passes _) (.within (.start source)) (fun _ => Passes.next) moves

/-- Within the lines, the text that is found is that of the line. -/
theorem StandsOn.lineText_eq {cs : List Char} {p : Position} {line : SourceLine} (h : p.StandsOn (sourceLines cs) p.line line)
    (hwithin : p.Within (splitLines cs)) : p.lineText = String.ofList line.text := by
  obtain ⟨_, _, htext⟩ := hwithin.pointsAt
  rw [← map_text_sourceLines, List.getElem?_map, List.getElem?_map, show (sourceLines cs)[p.place.line - 1]? = some line from h.getElem?]
    at htext
  exact (Option.some.inj htext).symm

/-- Between a carriage return and a line feed no text is found. -/
theorem lineText_of_splitsPair {p : Position} (h : p.splitsPair = true) : p.lineText = "" := by
  obtain ⟨hbehind, hahead⟩ : p.behind.head? = some '\r' ∧ p.ahead.head? = some '\n' := by simpa [splitsPair] using h
  obtain ⟨_, hbehind⟩ := List.head?_eq_some_iff.mp hbehind
  obtain ⟨_, hahead⟩ := List.head?_eq_some_iff.mp hahead
  simp [lineText, hbehind, hahead, isTerminator]

/-- The line where a row of moves leads from the start of a source. The position stands on the line whose number it has counted, and on no
other; the terminator belongs to the line that it ends. The text around the position is that of the line, wherever on the line and its
terminator it stands, except between a carriage return and its line feed: there it is empty, whatever the line. -/
theorem run_lineText (source : String) (moves : List Move) :
    let p := (start source).run moves
    let lines := sourceLines source.toList
    (∃ line, p.StandsOn lines p.line line) ∧
      ∀ number line, p.StandsOn lines number line →
        number = p.line ∧ p.lineText = if p.splitsPair then "" else String.ofList line.text := by
  intro p lines
  obtain ⟨line, hline⟩ := run_standsOn source moves
  refine ⟨⟨line, hline⟩, fun number line h => ?_⟩
  obtain rfl : number = p.line := h.unique hline
  refine ⟨rfl, ?_⟩
  cases hp : p.splitsPair with
  | true => exact lineText_of_splitsPair hp
  | false => exact h.lineText_eq ((run_passes source moves).within_of_not_splitsPair hp)

/-- Between the two characters that end `ab` the position stands on that line and has counted it, and the text is not that of the line. -/
theorem run_lineText_lost :
    let source := "ab\r\ncd"
    let p := (start source).run [.advanceTo 3]
    p.StandsOn (sourceLines source.toList) 1 ⟨['a', 'b'], some .pair⟩ ∧ p.place = ⟨1, ""⟩ ∧
      ¬p.place.PointsAt (splitLines source.toList) := by
  refine ⟨⟨[], [⟨['c', 'd'], none⟩], ['a', 'b', '\r'], ['\n'], ?_⟩, ?_, ?_⟩
  · decide
  · decide
  · rintro ⟨_, _, htext⟩
    exact absurd htext (by decide)

end Position

end Offside
