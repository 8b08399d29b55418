import Offside.Proofs.Grammar.Rounds
import Offside.Proofs.Token.Lines

/-!
# Where diagnostics point

A state stands at the position of the item read last, in front of the positions still to come. Reading moves along these, so it never
goes back to an earlier line, and what it reports is reported at the position where it has arrived.

Main statement: every diagnostic points at a line of the source by its number and its text, the diagnostics of a source come in the
order of their lines, and so does every item that the source yields point at its line.
-/

namespace Offside

open Production

variable {lines : List (List Char)}

/-- The position of the item read last, and those still to come. -/
def State.positions (s : State) : List Position := s.position :: s.stream.positions

/-- Reading has moved on to another state, not to an earlier line. -/
structure Onward (lines : List (List Char)) (s t : State) : Prop where
  ordered : Ordered lines t.positions
  line : s.position.line ≤ t.position.line

theorem Onward.refl {s : State} (h : Ordered lines s.positions) : Onward lines s s := ⟨h, Nat.le_refl _⟩

/-- Moving on and on is moving on. -/
theorem Onward.trans {s t u : State} (h : Onward lines s t) (h' : Onward lines t u) : Onward lines s u :=
  ⟨h'.ordered, Nat.le_trans h.line h'.line⟩

/-! ## Steps and failures -/

/-- The next item is read, whatever it stands for. -/
theorem State.take_onward {s : State} {i : Item} {is : List Item} (hi : s.stream.items = i :: is) (hs : Ordered lines s.positions) :
    Onward lines s (s.take i) := by
  have hpositions : s.positions = s.position :: (s.take i).positions := by
    simp [positions, TokenStream.positions, take, hi]
  rw [hpositions] at hs
  exact ⟨hs.sublist (List.sublist_cons_self _ _), (List.pairwise_cons.mp hs.sorted).1 _ List.mem_cons_self⟩

/-- The next token stands on the line of the lookahead or further down. -/
theorem advance_onward {s t : State} (ha : advance s = .ok () t) (hs : Ordered lines s.positions) : Onward lines s t := by
  rcases advance_ok_cases ha with ⟨hi, rfl⟩ | ⟨i, is, token, hi, _, rfl⟩
  · -- the end of the input is met again and again
    have hstream : s.stream.positions = [s.stream.finish] := by
      simp [TokenStream.positions, hi]
    unfold State.positions at hs
    rw [hstream] at hs
    refine ⟨?_, (List.pairwise_cons.mp hs.sorted).1 _ List.mem_cons_self⟩
    unfold State.positions
    rw [hstream]
    exact (hs.sublist (List.sublist_cons_self _ _)).again
  · exact ⟨(s.take_onward hi hs).ordered, (s.take_onward hi hs).line⟩

/-- Steps move on. The induction is on the steps; blocks and events stay where they are. -/
theorem Steps.onward {s t : State} (h : Steps s t) (hs : Ordered lines s.positions) : Onward lines s t := by
  induction h with
  | refl => exact .refl hs
  | read ha _ ih =>
    have hread := advance_onward ha hs
    exact hread.trans (ih hread.ordered)
  | note _ _ ih =>
    obtain ⟨hordered, hline⟩ := ih hs
    exact ⟨hordered, hline⟩
  | block _ _ ihin ihout =>
    have hin := ihin hs
    have hout := ihout hin.ordered
    exact ⟨hout.ordered, Nat.le_trans hin.line hout.line⟩

/-- A failure moves on to where reading is given up. -/
theorem Fails.onward {s t : State} {d : Diagnostic} (h : Fails s d t) (hs : Ordered lines s.positions) : Onward lines s t := by
  induction h with
  | malformed ha =>
    obtain ⟨i, is, literal, hi, _, rfl, rfl⟩ := advance_error_cases ha
    exact State.take_onward hi hs
  | unexpected | invalid => exact .refl hs
  | after hsteps _ ih =>
    have hbefore := hsteps.onward hs
    exact hbefore.trans (ih hbefore.ordered)
  | block _ ih => exact ⟨(ih hs).ordered, (ih hs).line⟩

/-- What fails is reported where reading has arrived. -/
theorem Fails.place {s t : State} {d : Diagnostic} (h : Fails s d t) : d.place = t.place := by
  induction h with
  | malformed ha =>
    obtain ⟨i, is, literal, _, _, rfl, rfl⟩ := advance_error_cases ha
    rfl
  | unexpected | invalid => rfl
  | after _ _ ih | block _ ih => exact ih

/-- A construct moves on, because it is made of steps. -/
theorem State.construct_onward {s t : State} (hc : s.construct = .ok () t) (hend : s.current ≠ .endOfInput)
    (hs : Ordered lines s.positions) : Onward lines s t := by
  obtain ⟨f, u, hsteps, ht⟩ := construct_follows hc hend
  obtain ⟨hordered, hline⟩ := hsteps.onward hs
  rcases ht with rfl | rfl
  · exact ⟨hordered, hline⟩
  · exact ⟨hordered, hline⟩

/-! ## The diagnostics of a script -/

/-- Diagnostics point at positions in order, from a given one on. -/
def Quotes (lines : List (List Char)) (p : Position) (ds : List Diagnostic) : Prop :=
  ∃ ps : List Position, ds.map (·.place) = ps.map (·.place) ∧ Ordered lines (p :: ps)

namespace Quotes

variable {p q : Position} {d : Diagnostic} {ds : List Diagnostic}

theorem nil (hp : p.Within lines) : Quotes lines p [] := ⟨[], rfl, List.forall_mem_singleton.mpr hp, List.pairwise_singleton _ _⟩

/-- One more diagnostic at the first position. -/
theorem cons (hd : d.place = p.place) (h : Quotes lines p ds) : Quotes lines p (d :: ds) := by
  obtain ⟨ps, hplaces, hordered⟩ := h
  refine ⟨p :: ps, ?_, hordered.again⟩
  rw [List.map_cons, List.map_cons, hplaces, hd]

/-- Diagnostics from a position on are diagnostics from any earlier one. -/
theorem earlier (hp : p.Within lines) (hle : p.line ≤ q.line) (h : Quotes lines q ds) : Quotes lines p ds := by
  obtain ⟨ps, hplaces, hordered⟩ := h
  exact ⟨ps, hplaces, hordered.earlier hp hle⟩

/-- Every diagnostic points at a line. -/
theorem pointsAt (h : Quotes lines p ds) : ∀ d ∈ ds, d.place.PointsAt lines := by
  obtain ⟨ps, hplaces, hordered⟩ := h
  intro d hd
  have hmem : d.place ∈ ps.map (·.place) := hplaces ▸ List.mem_map_of_mem hd
  obtain ⟨q, hq, hplace⟩ := List.mem_map.mp hmem
  rw [← hplace]
  exact (hordered.within q (List.mem_cons_of_mem _ hq)).pointsAt

/-- The lines of the diagnostics do not go back. -/
theorem sorted (h : Quotes lines p ds) : ds.Pairwise (·.place.line ≤ ·.place.line) := by
  obtain ⟨ps, hplaces, hordered⟩ := h
  have hps : (ps.map (·.place)).Pairwise (·.line ≤ ·.line) := List.pairwise_map.mpr (List.pairwise_cons.mp hordered.sorted).2
  rw [← hplaces] at hps
  exact (List.pairwise_map (R := fun a b : Place => a.line ≤ b.line)).mp hps

end Quotes

namespace State

variable {s : State}

/-- What is passed over is reported in order. -/
theorem passed_quotes (hs : Ordered lines s.positions)
    (h : Ordered lines s.pass.1.positions → Quotes lines s.pass.1.position s.pass.1.script.2) :
    Quotes lines s.position s.passed.2 := by
  have hok : ∀ {s t : State}, advance s = .ok () t → Ordered lines s.positions →
      (Ordered lines s.pass.1.positions → Quotes lines s.pass.1.position s.pass.1.script.2) → Quotes lines s.position s.passed.2 := by
    intro s t ha hs h
    have hread := advance_onward ha hs
    rw [passed_of_ok ha]
    rw [pass_of_ok ha] at h
    exact (h hread.ordered).earlier hs.head hread.line
  generalize hi : s.stream.items = items
  induction items generalizing s with
  | nil => exact hok (advance_end hi) hs h
  | cons i is ih =>
    cases hl : i.lexed with
    | token token => exact hok (advance_token hi hl) hs h
    | malformed literal =>
      have ha := advance_malformed hi hl
      have htake := s.take_onward hi hs
      rw [pass_of_error ha] at h
      rw [passed_of_error ha]
      have hpassed := ih (s := (s.take i).report _) htake.ordered h (congrArg List.tail hi)
      exact (hpassed.cons rfl).earlier hs.head htake.line

/-- A script reports in the order of the lines. The induction is on its rounds. -/
theorem script_quotes (s : State) (hp : Proper s) (hs : Ordered lines s.positions) : Quotes lines s.position s.script.2 := by
  induction s, hp using inductRounds with
  | ended s hp hend =>
    rw [script_end hend]
    exact .nil hs.head
  | separator s hp hsep ih =>
    rw [script_separator hp hsep]
    exact passed_quotes hs ih
  | stored s t hp hend hsep hc ih =>
    have hstored := construct_onward hc hend hs
    rw [script_stored hp hend hsep hc]
    exact (ih hstored.ordered).earlier hs.head hstored.line
  | failed s d t hp hend hsep hc ih =>
    have hfails := construct_fails hc hend
    have hfailed := hfails.onward hs
    rw [script_failed hp hend hsep hc]
    have hpassed : Quotes lines t.position (t.report d).passed.2 := passed_quotes (s := t.report d) hfailed.ordered ih
    exact (hpassed.cons hfails.place).earlier hs.head hfailed.line

end State

/-- What is reported points at the lines of the source: each diagnostic by the number and the text of a line, in the order of the
lines. So does every item that the source yields, the end of the input included. -/
theorem Workspace.read_points_at_lines (w : Workspace) (source : String) :
    let lines := splitLines source.toList
    (∀ d ∈ (w.read source).diagnostics, d.place.PointsAt lines) ∧
      (w.read source).diagnostics.Pairwise (·.place.line ≤ ·.place.line) ∧
      ∀ n, ((TokenStream.ofSource source).answer n).place.PointsAt lines := by
  intro lines
  have hordered := TokenStream.ofSource_ordered source
  have hquotes := State.script_quotes _ (.start source w) hordered
  refine ⟨hquotes.pointsAt, hquotes.sorted, fun n => ?_⟩
  exact (hordered.within _ (List.mem_cons_of_mem _ (TokenStream.answer_position_mem n _))).pointsAt

/-- Lines that end in three ways, with an error on the first, the fourth and the last. -/
example : ((Workspace.new .empty {}).read "a = )\r\nb\r\r1.2.3\n(").diagnostics.map (·.place) =
    [⟨1, "a = )"⟩, ⟨4, "1.2.3"⟩, ⟨5, "("⟩] := by decide +kernel

end Offside
