import Mathlib.Data.List.Basic
import Offside.Proofs.Grammar.Rounds
import Offside.Proofs.Token.Malformed

/-!
# Malformed literals are reported once

A malformed literal is taken off the stream by the one reading step that fails on it. That failure ends the construct it stands in,
however deep, and is reported; or it is met while the lookahead is passed over, and is reported there. So the malformed literals that a
script reports are those of its source, in order.
-/

namespace Offside

open Production

/-- Whether a diagnostic is about a malformed literal. -/
def Diagnostic.isMalformed (d : Diagnostic) : Bool :=
  match d.cause with
  | .malformedNumber _ => true
  | _ => false

/-- The malformed literals of a stream, as they are reported. -/
def TokenStream.problems (s : TokenStream) : List Diagnostic := s.items.filterMap Item.problem?

/-! ## One step -/

/-- A step that succeeds takes no malformed literal off the stream. -/
theorem problems_of_ok {s t : State} (h : advance s = .ok () t) : s.stream.problems = t.stream.problems := by
  unfold TokenStream.problems
  rcases advance_ok_cases h with ⟨_, rfl⟩ | ⟨i, is, token, hi, hl, rfl⟩
  · rfl
  · have hnone : i.problem? = none := by
      unfold Item.problem?
      rw [hl]
    rw [hi, List.filterMap_cons_none hnone, State.take, TokenStream.tail_items, hi, List.tail_cons]

/-- A step that fails takes the malformed literal that it fails on off the stream. -/
theorem problems_of_error {s t : State} {d : Diagnostic} (h : advance s = .error d t) :
    s.stream.problems = d :: t.stream.problems ∧ d.isMalformed = true := by
  obtain ⟨i, is, literal, hi, hl, rfl, rfl⟩ := advance_error_cases h
  have hsome : i.problem? = some { cause := .malformedNumber literal, place := i.place } := by
    unfold Item.problem?
    rw [hl]
    rfl
  unfold TokenStream.problems
  rw [hi, List.filterMap_cons_some hsome, State.take, TokenStream.tail_items, hi, List.tail_cons]
  exact ⟨rfl, rfl⟩

theorem Steps.problems {s t : State} (h : Steps s t) : s.stream.problems = t.stream.problems := by
  induction h with
  | refl => rfl
  | read ha _ ih => exact (problems_of_ok ha).trans ih
  | note _ _ ih => exact ih
  | block _ _ ihin ihout => exact ihin.trans ihout

/-- A failure is about a malformed literal exactly if it has taken one off the stream. -/
theorem Fails.problems {s t : State} {d : Diagnostic} (h : Fails s d t) :
    s.stream.problems = [d].filter (·.isMalformed) ++ t.stream.problems := by
  induction h with
  | malformed ha =>
    obtain ⟨hproblems, hd⟩ := problems_of_error ha
    rw [hproblems, List.filter_cons_of_pos hd]
    rfl
  | unexpected s expected =>
    have hd : (s.unexpected expected).isMalformed = false := by
      unfold State.unexpected
      by_cases hend : s.current = .endOfInput
      · rw [if_pos hend]
        rfl
      · rw [if_neg hend]
        rfl
    rw [List.filter_cons_of_neg (by simp [hd])]
    rfl
  | invalid => rfl
  | after hsteps _ ih => exact hsteps.problems.trans ih
  | block _ ih => exact ih

namespace State

/-- Passing over the lookahead reports the malformed literals that it passes over. -/
theorem pass_problems (s : State) : s.stream.problems = s.pass.2.filter (·.isMalformed) ++ s.pass.1.stream.problems := by
  have hok : ∀ {s t : State}, advance s = .ok () t →
      s.stream.problems = s.pass.2.filter (·.isMalformed) ++ s.pass.1.stream.problems := by
    intro s t ha
    rw [pass_of_ok ha]
    exact problems_of_ok ha
  generalize hi : s.stream.items = items
  induction items generalizing s with
  | nil => exact hok (advance_end hi)
  | cons i is ih =>
    cases hl : i.lexed with
    | token token => exact hok (advance_token hi hl)
    | malformed literal =>
      have ha := advance_malformed hi hl
      obtain ⟨hproblems, hd⟩ := problems_of_error ha
      rw [pass_of_error ha, List.filter_cons_of_pos hd, hproblems, List.cons_append]
      exact congrArg (_ :: ·) (ih ((s.take i).report _) (congrArg List.tail hi))

/-- A script reports the malformed literals of its stream. -/
theorem script_problems (s : State) (hs : Proper s) : s.script.2.filter (·.isMalformed) = s.stream.problems := by
  induction s, hs using inductRounds with
  | ended s hs hend =>
    unfold TokenStream.problems
    rw [script_end hend, hs.finished hend]
    rfl
  | separator s hs hsep ih => rw [script_separator hs hsep, List.filter_append, ih, s.pass_problems]
  | stored s t hs hend hsep hc ih =>
    obtain ⟨f, u, hsteps, rfl | rfl⟩ := construct_follows hc hend
    · rw [script_stored hs hend hsep hc, ih, hsteps.problems]
    · rw [script_stored hs hend hsep hc, ih, hsteps.problems]
  | failed s d t hs hend hsep hc ih =>
    rw [script_failed hs hend hsep hc, List.filter_append, ih, (construct_fails hc hend).problems, ← List.singleton_append,
      List.filter_append, List.append_assoc, ← pass_problems]
    rfl

end State

/-- Every malformed literal is reported once. The diagnostics about malformed literals are those that the items of the source give,
in order, with the literal and the line; and these are the runs of digits and points that are malformed. -/
theorem Workspace.read_malformed_literals (w : Workspace) (source : String) :
    (w.read source).diagnostics.filter (·.isMalformed) = (TokenStream.ofSource source).items.filterMap Item.problem? ∧
      (w.read source).diagnostics.filter (·.isMalformed) =
        (TokenStream.ofSource source).items.filterMap (·.position.problem?) := by
  have hscript : (w.read source).diagnostics.filter (·.isMalformed) = (TokenStream.ofSource source).problems :=
    State.script_problems _ (.start source w)
  refine ⟨hscript, hscript.trans ?_⟩
  exact List.filterMap_congr (TokenStream.ofSource_problem? source)

/-- Literals inside a call, where an operand is missing, in the header of a function, and behind a token that is passed over. -/
example : ((Workspace.new .empty {}).read "f(1, 1.2.3)\n2 * ) 3.4.5 6..7\nfunction 8.9.0()").diagnostics.filter (·.isMalformed) =
    [⟨.malformedNumber "1.2.3", ⟨1, "f(1, 1.2.3)"⟩⟩, ⟨.malformedNumber "3.4.5", ⟨2, "2 * ) 3.4.5 6..7"⟩⟩,
      ⟨.malformedNumber "6..7", ⟨2, "2 * ) 3.4.5 6..7"⟩⟩, ⟨.malformedNumber "8.9.0", ⟨3, "function 8.9.0()"⟩⟩] := by
  decide +kernel

end Offside
