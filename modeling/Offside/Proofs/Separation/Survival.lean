import Mathlib.Data.List.Count
import Offside.Proofs.Grammar.Functions
import Offside.Proofs.Grammar.Places
import Offside.Proofs.Separation.Sources

/-!
# A function behind a source that may be wrong

A source, a line feed and a function are read as one. The run over all of it is compared with the run over the source and the line feed:
they are side by side up to the separators at the end of the source (`Alongside`), and where the shorter run comes to its end the other
stands in front of the function (`AtFunction`). No expression reads the word that a function begins with, so nothing is different up to
there.

From there on it counts whether the shorter run has failed at its end, which shows in the line of its last diagnostic (`BreaksOff`). If it
has not, the longer run reads the function as it would be read by itself. If it has, the longer run has failed in front of the function,
and passes over the word that it begins with: then there is no function left to be read.
-/

namespace Offside

open Production

/-- A source does not come to an end: with a line feed behind it something is reported on the line that the line feed opens, where nothing
but the end of the input is. -/
def BreaksOff (w : Workspace) (a : String) : Prop :=
  ∃ d ∈ (w.read (a ++ "\n")).diagnostics, d.place.line = (splitLines (a ++ "\n").toList).length

instance (w : Workspace) (a : String) : Decidable (BreaksOff w a) := inferInstanceAs (Decidable (∃ d ∈ _, _))

/-! ## Two runs side by side -/

/-- Separators, and behind them the word that a function begins with. -/
structure OpensFunction (gap core : List (Lexed × Place)) : Prop where
  separators : ∀ x ∈ gap, x.1 = .token .statementEnd
  word : core.head?.map Prod.fst = some (.token (.keyword .function))

section

-- what comes behind the first source up to the end, and the line that the first source ends on
variable (gap core : List (Lexed × Place)) (finish : Position) (last : Nat)

/-- The longer run `s` and the shorter run `t` are inside the first source. -/
structure Alongside (s t : State) : Prop where
  current : t.current = s.current
  place : t.place = s.place
  faces : s.stream.faces = t.stream.faces ++ (gap ++ core)
  finish : s.stream.finish = finish
  workspace : t.workspace = s.workspace
  ends : (Lexed.token t.current :: t.stream.items.map (·.lexed)).getLast? = some (.token .statementEnd)
  above : ∀ p ∈ t.position :: t.stream.items.map (·.position), p.line < last
  below : t.stream.finish.line = last

/-- The shorter run `t` is over, and the longer run `s` stands in front of the function. -/
structure AtFunction (s t : State) : Prop where
  entered : Entered s core
  finish : s.stream.finish = finish
  workspace : t.workspace = s.workspace
  ended : t.current = .endOfInput
  items : t.stream.items = []
  line : t.position.line = last

/-- The longer run has come as far as the shorter, if separators in front of the function do not count. -/
def Nears (s t : State) : Prop := Alongside gap core finish last s t ∨ AtFunction core finish last s t

end

variable {gap core : List (Lexed × Place)} {finish : Position} {last : Nat} {s t : State}

theorem Entered.current_function (h : Entered s core) (hword : core.head?.map Prod.fst = some (.token (.keyword .function))) :
    s.current = .keyword .function := by
  cases core with
  | nil => cases hword
  | cons x core =>
    obtain ⟨lexed, place⟩ := x
    cases hword
    exact (Lexed.token.inj h.1).symm

namespace OpensFunction

theorem quiet (h : OpensFunction gap core) : Quiet core := by
  intro x hx
  have hword := h.word
  rw [Option.mem_def.mp hx] at hword
  exact ⟨_, Option.some.inj hword, by simp, by simp, rfl⟩

/-- From a separator in front of the gap the word that the function begins with is reached by passing over separators. -/
theorem skip (h : OpensFunction gap core) (hcurrent : s.current = .statementEnd) (hfaces : s.stream.faces = gap ++ core) :
    ∃ s', skipStatementEnds s = .ok () s' ∧ Entered s' core ∧ s'.stream.finish = s.stream.finish ∧ s'.workspace = s.workspace := by
  have hseparators := h.separators
  induction gap generalizing s with
  | nil =>
    obtain ⟨s', ha, hentered, hhalts, hfinish⟩ := Entered.of_advance h.quiet hfaces
    refine ⟨s', ?_, hentered, hfinish, (Steps.read ha (.refl _)).workspace_eq⟩
    rw [skipStatementEnds_advance hcurrent ha, skipStatementEnds_stop hhalts.separator]
  | cons x gap ih =>
    obtain ⟨i, is, hi, hlexed, _, htail⟩ := State.items_of_faces hfaces
    rw [hseparators x List.mem_cons_self] at hlexed
    have hgap : ∀ y ∈ gap, y.1 = .token .statementEnd := fun y hy => hseparators y (List.mem_cons_of_mem _ hy)
    obtain ⟨s', hskip, hentered, hfinish, hworkspace⟩ :=
      ih ⟨hgap, h.word⟩ (s := { s.take i with current := .statementEnd }) rfl htail hgap
    refine ⟨s', ?_, hentered, hfinish, hworkspace⟩
    rw [skipStatementEnds_advance hcurrent (advance_token hi hlexed)]
    exact hskip

end OpensFunction

namespace Alongside

theorem note (h : Alongside gap core finish last s t) (event event' : Event) :
    Alongside gap core finish last (s.note event) (t.note event') :=
  ⟨h.current, h.place, h.faces, h.finish, h.workspace, h.ends, h.above, h.below⟩

/-- The separator at the end of the first source is the last thing in it. -/
theorem current_of_end (h : Alongside gap core finish last s t) (hitems : t.stream.items = []) : t.current = .statementEnd := by
  have hends := h.ends
  rw [hitems] at hends
  simpa using hends

/-- In front of an item of the first source both runs read the same. -/
theorem advance (h : Alongside gap core finish last s t) (hgo : t.stream.items ≠ []) :
    Corresponds (Alongside gap core finish last) (fun d e => e.place.line ≠ last → d = e) id (Production.advance s)
      (Production.advance t) := by
  cases hi : t.stream.items with
  | nil => exact absurd hi hgo
  | cons i is =>
    have hfaces := h.faces
    rw [State.faces_take hi] at hfaces
    obtain ⟨j, js, hj, hlexed, hplace, htail⟩ := State.items_of_faces hfaces
    have habove : ∀ p ∈ (t.take i).position :: (t.take i).stream.items.map (·.position), p.line < last := by
      intro p hp
      refine h.above p (List.mem_cons_of_mem _ ?_)
      simpa [State.take, hi] using hp
    have hends := h.ends
    rw [hi, List.map_cons, List.getLast?_cons_cons] at hends
    cases hl : i.lexed with
    | token token =>
      rw [advance_token hi hl, advance_token hj (hlexed.trans hl)]
      rw [hl] at hends
      refine .ok () ⟨rfl, hplace.symm, htail, h.finish, h.workspace, ?_, habove, h.below⟩
      simpa [State.take, hi] using hends
    | malformed literal =>
      rw [advance_malformed hi hl, advance_malformed hj (hlexed.trans hl), hplace]
      rw [hl] at hends
      refine .error (fun _ => rfl) ⟨h.current, hplace.symm, htail, h.finish, h.workspace, ?_, habove, h.below⟩
      -- a malformed literal is no separator, so it is not the last item
      cases is with
      | nil => simp at hends
      | cons k ks => simpa [State.take, hi] using hends

/-- Where the shorter run passes over separators to its end the longer comes to the function. -/
theorem skip (hopens : OpensFunction gap core) (h : Alongside gap core finish last s t) :
    Corresponds (Nears gap core finish last) (fun d e => e.place.line ≠ last → d = e) id (skipStatementEnds s)
      (skipStatementEnds t) := by
  generalize hitems : t.stream.items = items
  induction items generalizing s t with
  | nil =>
    have hcurrent := h.current_of_end hitems
    have hfaces := h.faces
    rw [TokenStream.faces_of_items_nil hitems] at hfaces
    obtain ⟨s', hskip, hentered, hfinish, hworkspace⟩ := hopens.skip (h.current.symm.trans hcurrent) hfaces
    rw [hskip, skipStatementEnds_advance hcurrent (advance_end hitems), skipStatementEnds_stop (by simp)]
    exact .ok () (Or.inr ⟨hentered, hfinish.trans h.finish, h.workspace.trans hworkspace.symm, rfl, hitems, h.below⟩)
  | cons i is ih =>
    by_cases hcurrent : t.current = .statementEnd
    · have hcurrent' : s.current = .statementEnd := h.current.symm.trans hcurrent
      have hcorr := h.advance (by simp [hitems])
      generalize hp : Production.advance s = first at hcorr
      generalize hq : Production.advance t = second at hcorr
      cases hcorr with
      | ok _ hrel =>
        rw [skipStatementEnds_advance hcurrent' hp, skipStatementEnds_advance hcurrent hq]
        rcases advance_ok_cases hq with ⟨hnil, _⟩ | ⟨j, js, _, _, _, rfl⟩
        · rw [hitems] at hnil
          cases hnil
        · exact ih hrel (congrArg List.tail hitems)
      | error herr hrel =>
        rw [skipStatementEnds_error hcurrent' hp, skipStatementEnds_error hcurrent hq]
        exact .error herr (Or.inl hrel)
    · rw [skipStatementEnds_stop (h.current ▸ hcurrent), skipStatementEnds_stop hcurrent]
      exact .ok () (Or.inl h)

end Alongside

namespace Nears

theorem workspace (h : Nears gap core finish last s t) : t.workspace = s.workspace := h.elim (·.workspace) (·.workspace)

theorem note (h : Nears gap core finish last s t) (event event' : Event) :
    Nears gap core finish last (s.note event) (t.note event') :=
  h.imp (·.note event event') fun h => ⟨h.entered.congr rfl rfl rfl, h.finish, h.workspace, h.ended, h.items, h.line⟩

/-- The same change to both workspaces. -/
theorem update (h : Nears gap core finish last s t) (f : Workspace → Workspace) :
    Nears gap core finish last { s with workspace := f s.workspace } { t with workspace := f t.workspace } :=
  h.imp (fun h => ⟨h.current, h.place, h.faces, h.finish, congrArg f h.workspace, h.ends, h.above, h.below⟩)
    fun h => ⟨h.entered.congr rfl rfl rfl, h.finish, congrArg f h.workspace, h.ended, h.items, h.line⟩

/-- A diagnostic for the position of the shorter run is one for the longer run too, unless the shorter is over. -/
theorem place (h : Nears gap core finish last s t) (hline : t.place.line ≠ last) : t.current = s.current ∧ t.place = s.place := by
  rcases h with h | h
  · exact ⟨h.current, h.place⟩
  · exact absurd h.line hline

end Nears

/-- No production reads the word that a function begins with. -/
def nearing (hopens : OpensFunction gap core) (finish : Position) (last : Nat) : Simulation where
  Rel := Nears gap core finish last
  Err d e := e.place.line ≠ last → d = e
  rename := id
  Spans := True
  kept := 0
  token {s t} h := by
    rcases h with h | h
    · exact Or.inl (Or.inl h.current)
    · exact Or.inl (Or.inr ⟨h.ended, by rw [h.entered.current_function hopens.word]; rfl⟩)
  spans _ _ := trivial
  read {s t} h htoken hend hsep _ := by
    rcases h with h | h
    · refine (h.advance fun hitems => hsep (htoken.symm.trans (h.current_of_end hitems))).mono fun h => ⟨Or.inl h, Or.inl h.current⟩
    · exact absurd (htoken.symm.trans h.ended) hend
  skip {s t} _ h := by
    rcases h with h | h
    · exact Or.inr (h.skip hopens)
    · rw [skipStatementEnds_stop (by simp [h.entered.current_function hopens.word]), skipStatementEnds_stop (by simp [h.ended])]
      exact Or.inr (.ok () (Or.inr h))
  note event event' h := h.note event event'
  enter h := h.update fun w => { w with depth := w.depth + 1 }
  leave h := h.update fun w => { w with depth := w.depth - 1 }
  unexpected expected h hline := by
    obtain ⟨hcurrent, hplace⟩ := Nears.place h hline
    simp [State.unexpected, hcurrent, hplace]
  invalid detail h hline := by
    obtain ⟨_, hplace⟩ := Nears.place h hline
    simp [State.invalidDeclaration, hplace]
  uninitialized name h hline := by
    obtain ⟨_, hplace⟩ := Nears.place h hline
    simp [State.invalidDeclaration, hplace]
  resolve name h := by
    rw [Nears.workspace h]
    rfl
  depth h := by rw [Nears.workspace h]
  globalName h := by rw [Nears.workspace h]

/-! ## Two scripts -/

section

variable (core : List (Lexed × Place)) (finish : Position) (last : Nat)

/-- A run stands in front of the function, with a given workspace. -/
structure InFront (w : Workspace) (u : State) : Prop where
  proper : Proper u
  entered : Entered u core
  finish : u.stream.finish = finish
  workspace : u.workspace = w

/-- What the longer run leads to, by what the shorter leads to: it reads the function, or passes over the word that the function begins
with, if the shorter run has failed at its end. -/
inductive Meets (long short : State × List Diagnostic) : Prop where
  | reads {u : State} : InFront core finish short.1.workspace u → long = (u.script.1, short.2 ++ u.script.2) →
      (∀ d ∈ short.2, d.place.line ≠ last) → Meets long short
  | passes {u : State} : InFront core finish short.1.workspace u → long.1 = u.passed.1 → (∃ d ∈ short.2, d.place.line = last) →
      Meets long short

end

/-- A diagnostic of both runs in front of the others. -/
theorem Meets.cons {long short : State × List Diagnostic} (h : Meets core finish last long short) {d : Diagnostic}
    (hd : d.place.line ≠ last) : Meets core finish last (long.1, d :: long.2) (short.1, d :: short.2) := by
  cases h with
  | reads hfront heq hlines => exact .reads hfront (by rw [heq]; rfl) (List.forall_mem_cons.mpr ⟨hd, hlines⟩)
  | passes hfront heq hbreak =>
    obtain ⟨e, he, hline⟩ := hbreak
    exact .passes hfront heq ⟨e, List.mem_cons_of_mem _ he, hline⟩

/-- Behind the last separator of the first source the longer run comes to the function by itself. -/
theorem Alongside.passed_end (hopens : OpensFunction gap core) (h : Alongside gap core finish last s t) (hs : Proper s)
    (hitems : t.stream.items = []) : Meets core finish last s.passed t.passed := by
  have hcurrent : s.current = .statementEnd := h.current.symm.trans (h.current_of_end hitems)
  have hfaces := h.faces
  rw [TokenStream.faces_of_items_nil hitems] at hfaces
  obtain ⟨s', hs', hcurrent', hfaces', hfinish, hworkspace, hscript⟩ := State.script_separators hs hcurrent hopens.separators hfaces
  obtain ⟨u, ha, hentered, _, hfinish'⟩ := Entered.of_advance hopens.quiet hfaces'
  have hu : u.workspace = t.workspace :=
    (Steps.read ha (.refl _)).workspace_eq.trans (hworkspace.trans h.workspace.symm)
  rw [State.passed_end hitems]
  refine .reads ⟨hs'.advance ha, hentered, hfinish'.trans (hfinish.trans h.finish), hu⟩ ?_ (fun d hd => absurd hd List.not_mem_nil)
  rw [State.passed, ← State.script_separator hs hcurrent, hscript, State.script_separator hs' hcurrent', State.pass_of_ok ha]

/-- Both runs pass over the same, and the longer comes to the function if the shorter comes to its end. -/
theorem Alongside.passed (hopens : OpensFunction gap core) (h : Alongside gap core finish last s t) (hs : Proper s) (ht : Proper t)
    (ih : ∀ {s'}, Nears gap core finish last s' t.pass.1 → Proper s' → Meets core finish last s'.script t.pass.1.script) :
    Meets core finish last s.passed t.passed := by
  generalize hitems : t.stream.items = items
  induction items generalizing s t with
  | nil => exact h.passed_end hopens hs hitems
  | cons i is ihis =>
    have hcorr := h.advance (by simp [hitems])
    generalize hp : Production.advance s = first at hcorr
    generalize hq : Production.advance t = second at hcorr
    cases hcorr with
    | ok _ hrel =>
      rw [State.pass_of_ok hq] at ih
      rw [State.passed_of_ok hp, State.passed_of_ok hq]
      exact ih (Or.inl hrel) (hs.advance hp)
    | @error s' t' d e herr hrel =>
      obtain ⟨j, js, literal, hj, _, rfl, he⟩ := advance_error_cases hq
      obtain ⟨k, ks, _, hk, _, rfl, _⟩ := advance_error_cases hp
      rw [State.pass_of_error hq] at ih
      have hline : e.place.line ≠ last := by
        rw [he]
        exact Nat.ne_of_lt (h.above j.position (by simp [hj]))
      have hdiagnostic := herr hline
      subst hdiagnostic
      have hrest := ihis (s := (s.take k).report d) (t := (t.take j).report d) (hrel.note _ _)
        ((take_proper hs hk).congr rfl rfl) ((take_proper ht hj).congr rfl rfl) ih (congrArg List.tail hitems)
      rw [State.passed_of_error hp, State.passed_of_error hq]
      exact hrest.cons hline

/-- Behind a construct that has failed the longer run goes on like the shorter inside the first source. In front of the function it passes
over the word that the function begins with. -/
theorem Nears.failed (hopens : OpensFunction gap core) {d e : Diagnostic} (h : Nears gap core finish last s t) (hs : Proper s)
    (ht : Proper t) (hplace : e.place = t.place) (herr : e.place.line ≠ last → d = e)
    (ih : ∀ {s'}, Nears gap core finish last s' (t.report e).pass.1 → Proper s' →
      Meets core finish last s'.script (t.report e).pass.1.script) :
    Meets core finish last ((s.report d).passed.1, d :: (s.report d).passed.2) ((t.report e).passed.1, e :: (t.report e).passed.2) := by
  rcases h with h | h
  · have hline : e.place.line ≠ last := by
      rw [hplace]
      exact Nat.ne_of_lt (h.above _ List.mem_cons_self)
    obtain rfl := herr hline
    exact (Alongside.passed hopens (h.note _ _) (hs.congr rfl rfl) (ht.congr rfl rfl) ih).cons hline
  · have hover : (t.report e).passed = ({ t.report e with current := .endOfInput, position := t.stream.finish }, []) :=
      State.passed_end h.items
    rw [hover]
    refine .passes (u := s.report d) ⟨hs.congr rfl rfl, h.entered.congr rfl rfl rfl, h.finish, h.workspace.symm⟩ rfl
      ⟨e, List.mem_cons_self, ?_⟩
    rw [hplace]
    exact h.line

/-- The longer run leads to what it leads to from the function on, after all that the shorter run leads to. -/
theorem Nears.script (hopens : OpensFunction gap core) (h : Nears gap core finish last s t) (hs : Proper s) (ht : Proper t) :
    Meets core finish last s.script t.script := by
  induction t, ht using State.inductRounds generalizing s with
  | ended t ht hend =>
    rcases h with h | h
    · have hsep := h.current_of_end (ht.finished hend)
      rw [hend] at hsep
      cases hsep
    · rw [State.script_end hend]
      exact .reads ⟨hs, h.entered, h.finish, h.workspace.symm⟩ rfl fun d hd => absurd hd List.not_mem_nil
  | separator t ht hsep ih =>
    rcases h with h | h
    · rw [State.script_separator hs (h.current.symm.trans hsep), State.script_separator ht hsep]
      exact h.passed hopens hs ht ih
    · rw [h.ended] at hsep
      cases hsep
  | stored t v ht hend hsep hc ih =>
    have htoken : t.current = s.current := h.elim (·.current) fun h => absurd h.ended hend
    have hend' : s.current ≠ .endOfInput := htoken ▸ hend
    obtain ⟨gs, fs, u, v', hp, hrel, rfl⟩ :=
      (Simulation.constructs (S := nearing hopens finish last) h htoken hend').of_second_ok rfl hc
    have hnext := Nears.update hrel fun w => w.extend gs fs
    have hproper := (State.construct_proper hp hend' hs).1
    rw [State.script_stored ht hend hsep hc, State.script_stored hs hend' (htoken ▸ hsep) hp]
    refine ih ?_ hproper
    simpa [nearing] using hnext
  | failed t e v ht hend hsep hc ih =>
    have htoken : t.current = s.current := h.elim (·.current) fun h => absurd h.ended hend
    have hend' : s.current ≠ .endOfInput := htoken ▸ hend
    obtain ⟨d, u, hp, herr, hrel⟩ :=
      (Simulation.constructs (S := nearing hopens finish last) h htoken hend').of_second_error rfl hc
    have hfails := State.construct_fails hc hend
    rw [State.script_failed ht hend hsep hc, State.script_failed hs hend' (htoken ▸ hsep) hp]
    exact Nears.failed hopens hrel ((State.construct_fails hp hend').leaves.2.2 hs) (hfails.leaves.2.2 ht) hfails.place herr ih

/-! ## The function -/

section

variable {w : Workspace} {f : String} {definition : Function}

/-- A source that is read as one function begins with the word for it, if separators do not count, and does not hold it again. -/
theorem TokenStream.first?_of_function (hclean : (w.read f).diagnostics = [])
    (hread : (w.read f).workspace = w.extend [] [definition]) :
    (ofSource f).first? = some (.token (.keyword .function)) ∧ (ofSource f).tokens.count (.keyword .function) = 1 := by
  have htokens := clean_tokens hclean
  obtain ⟨hcount, hword⟩ := State.script_count (.start f w) (.start w htokens) hclean hread
  have hfirst := hword rfl
  rw [List.count_cons_of_ne (by simp)] at hcount
  rw [List.find?_cons_of_neg (by simp)] at hfirst
  refine ⟨?_, hcount⟩
  have hmem : .keyword .function ∈ (ofSource f).tokens := List.count_pos_iff.mp (by rw [hcount]; exact Nat.one_pos)
  cases hfind : (ofSource f).tokens.find? (· ≠ .statementEnd) with
  | none => exact absurd (List.find?_eq_none.mp hfind _ hmem) (by simp)
  | some token =>
    obtain rfl := hfirst token hfind
    rw [first?, htokens, List.find?_map]
    exact Option.map_eq_some_iff.mpr ⟨_, by simpa [Function.comp_def] using hfind, rfl⟩

/-- The items of a source that is read as one function, behind some of the separators that it begins with. -/
theorem TokenStream.faces_of_function (hclean : (w.read f).diagnostics = []) (hread : (w.read f).workspace = w.extend [] [definition])
    {lead rest : List (Lexed × Place)} (hlead : ∀ x ∈ lead, x.1 = .token .statementEnd) (hfaces : (ofSource f).faces = lead ++ rest) :
    ∃ gap place tail, rest = gap ++ (.token (.keyword .function), place) :: tail ∧ (∀ x ∈ gap, x.1 = .token .statementEnd) ∧
      ∀ x ∈ tail, x.1 ≠ .token (.keyword .function) := by
  obtain ⟨hfirst, hcount⟩ := first?_of_function hclean hread
  obtain ⟨gap, core, rfl, hgap, -, hhead⟩ := first?_split hlead hfaces
  rw [hfirst] at hhead
  obtain ⟨⟨_, place⟩, hcore, rfl⟩ := Option.map_eq_some_iff.mp hhead.symm
  obtain ⟨tail, rfl⟩ := List.head?_eq_some_iff.mp hcore
  refine ⟨gap, place, tail, rfl, hgap, fun x hx heq => ?_⟩
  -- the word would be there twice
  have hmap : (ofSource f).tokens.map .token =
      (lead ++ gap).map Prod.fst ++ .token (.keyword .function) :: tail.map Prod.fst := by
    rw [← clean_tokens hclean, ← map_fst_faces, hfaces, ← List.append_assoc, List.map_append]
    rfl
  have htwice := congrArg (List.count (.token (.keyword .function))) hmap
  rw [List.count_map_of_injective _ _ (fun _ _ h => Lexed.token.inj h), hcount, List.count_append, List.count_cons_self] at htwice
  have hpos : 0 < (tail.map Prod.fst).count (.token (.keyword .function)) :=
    List.count_pos_iff.mpr (List.mem_map.mpr ⟨x, hx, heq⟩)
  omega

end

/-- With a line feed behind it a source ends in a separator. -/
theorem TokenStream.ofSource_line_feed {a : String} {fence : List (Lexed × Place)} (hfence : CutOff.Fence (ofSource a) fence)
    (hjoin : ∃ lead rest, Splice a "" fence lead rest) :
    (ofSource (a ++ "\n")).faces = (ofSource a).faces ++ fence ∧
      ∃ front place, (ofSource (a ++ "\n")).faces = front ++ [(.token .statementEnd, place)] := by
  obtain ⟨lead, rest, hsplice⟩ := hjoin
  have hnone : [] = lead ++ rest := hsplice.second
  obtain ⟨_, hrest⟩ := List.append_eq_nil_iff.mp hnone.symm
  have hfaces := hsplice.faces
  rw [hrest, String.append_empty, List.map_nil, List.append_nil] at hfaces
  refine ⟨hfaces, ?_⟩
  rw [hfaces]
  cases hfence with
  | separator => exact ⟨_, _, rfl⟩
  | none front place hlast => exact ⟨front, place, by rw [List.append_nil, hlast]⟩

/-- Before anything is read the two runs are side by side. -/
theorem Alongside.start (w : Workspace) {a f : String} {fence lead rest : List (Lexed × Place)}
    (hfence : CutOff.Fence (.ofSource a) fence) (hjoin : ∃ lead rest, TokenStream.Splice a "" fence lead rest)
    (hsplice : TokenStream.Splice a f fence lead rest)
    (hrest : rest.map (faceDown (lineAt (a ++ "\n" ++ f) (a.length + 1) - 1)) = gap ++ core) :
    Alongside gap core (TokenStream.ofSource (a ++ "\n" ++ f)).finish (splitLines (a ++ "\n").toList).length
      (.start (a ++ "\n" ++ f) w) (.start (a ++ "\n") w) := by
  obtain ⟨hfaces, front, place, hlast⟩ := TokenStream.ofSource_line_feed hfence hjoin
  have hterminated : (a ++ "\n").toList.getLast? = some '\n' := by simp
  obtain ⟨habove, hbelow⟩ := TokenStream.ofSource_last_line hterminated
  have hplace : (Position.start (a ++ "\n")).place = (Position.start a).place := by
    have hcut := (CutOff.start a "").place
    rwa [String.append_empty] at hcut
  refine ⟨rfl, hplace.trans (CutOff.start a f).place.symm, ?_, rfl, rfl, ?_, habove, hbelow⟩
  · rw [← hrest]
    show (TokenStream.ofSource _).faces = (TokenStream.ofSource _).faces ++ _
    rw [hsplice.faces, hfaces]
  · show (Lexed.token .statementEnd :: (TokenStream.ofSource (a ++ "\n")).items.map (·.lexed)).getLast? = _
    rw [← TokenStream.map_fst_faces, hlast, List.map_append, ← List.cons_append, List.getLast?_append]
    rfl

/-! ## Both sources -/

variable {w : Workspace} {definition : Function}

/-- In front of a function a run reads what the function is by itself, and nothing else. -/
theorem InFront.reads {gs fs : List Function} {f : String} {n : Nat} {lead core : List (Lexed × Place)} {u : State}
    {w' : Workspace} (h : InFront (core.map (faceDown n)) finish w' u) (hw : w' = w.extend gs fs) (hclean : (w.read f).diagnostics = [])
    (hread : (w.read f).workspace = w.extend [] [definition]) (hlead : ∀ x ∈ lead, x.1 = .token .statementEnd)
    (hsource : (TokenStream.ofSource f).faces = lead ++ core)
    (hfinish : finish.place = (TokenStream.ofSource f).finish.place.down n) :
    u.script.1.workspace = w'.addFunction definition ∧ u.script.2 = [] := by
  obtain ⟨hworkspace, hreport⟩ := h.entered.reads hlead hsource (by rw [h.finish, hfinish])
  obtain ⟨gs', fs', hadd, hadd', hsame⟩ := w.read_extend gs fs f
  obtain ⟨rfl, rfl⟩ := Workspace.extend_inj (hread.symm.trans hadd)
  rw [h.workspace, hw] at hworkspace hreport
  rw [hworkspace, hreport, hadd', hsame, hclean, hw, Workspace.addFunction_eq_extend]
  exact ⟨rfl, rfl⟩

/-- Behind the word that a function begins with there is no function. -/
theorem InFront.passes {n : Nat} {place : Place} {tail : List (Lexed × Place)} {u : State}
    (h : InFront (((.token (.keyword .function), place) :: tail).map (faceDown n)) finish w u)
    (htail : ∀ x ∈ tail, x.1 ≠ .token (.keyword .function)) : u.passed.1.workspace.functions = w.functions := by
  have hitems : ∀ i ∈ u.stream.items, i.lexed ≠ .token (.keyword .function) := by
    intro i hi
    have hmem : i.face ∈ tail.map (faceDown n) := h.entered.2.2 ▸ List.mem_map_of_mem hi
    obtain ⟨x, hx, hface⟩ := List.mem_map.mp hmem
    have hlexed : x.1 = i.lexed := congrArg Prod.fst hface
    exact hlexed ▸ htail x hx
  obtain ⟨hworkspace, hproper, _, _⟩ := State.pass_leaves h.proper
  have hscript := (LacksFunctions.of_pass hitems).script hproper
  rw [hworkspace, h.workspace] at hscript
  exact hscript

/-- A function behind a line feed is read as it would be read by itself, whatever is in front of it and however wrong that is, unless what
is in front of it breaks off: then the function is lost, and no other is read instead of it. -/
theorem Workspace.read_join_function (w : Workspace) (a f : String) {definition : Function} (hclean : (w.read f).diagnostics = [])
    (hglobals : (w.read f).workspace.globals = w.globals)
    (hfunctions : (w.read f).workspace.functions = w.functions ++ [definition]) :
    let first := w.read (a ++ "\n")
    let joined := w.read (a ++ "\n" ++ f)
    (¬BreaksOff w a → joined.workspace = first.workspace.addFunction definition ∧ joined.diagnostics = first.diagnostics) ∧
      (BreaksOff w a → joined.workspace.functions = first.workspace.functions) := by
  intro first joined
  have hread : (w.read f).workspace = w.extend [] [definition] := by
    obtain ⟨gs, fs, hadd⟩ := State.script_extends _ (.start f w)
    have hadd : (w.read f).workspace = w.extend gs fs := hadd
    rw [hadd] at hglobals hfunctions
    have hgs : gs = [] := List.append_right_eq_self.mp hglobals
    have hfs : fs = [definition] := List.append_cancel_left hfunctions
    rw [hadd, hgs, hfs]
  obtain ⟨fence, hfence, hjoin⟩ := TokenStream.ofSource_join a
  obtain ⟨lead, rest, hsplice⟩ := hjoin f
  obtain ⟨gap, place, tail, rfl, hgap, htail⟩ := TokenStream.faces_of_function hclean hread hsplice.separators hsplice.second
  have hlead : ∀ x ∈ lead ++ gap, x.1 = .token .statementEnd := List.forall_mem_append.mpr ⟨hsplice.separators, hgap⟩
  have hopens : OpensFunction (gap.map (faceDown (lineAt (a ++ "\n" ++ f) (a.length + 1) - 1)))
      (((.token (.keyword .function), place) :: tail).map (faceDown (lineAt (a ++ "\n" ++ f) (a.length + 1) - 1))) :=
    ⟨List.forall_mem_map.mpr hgap, rfl⟩
  have hmeets := Nears.script hopens (Or.inl (.start w hfence (hjoin "") hsplice List.map_append)) (.start _ w) (.start _ w)
  cases hmeets with
  | reads hfront hscript hlines =>
    obtain ⟨gs, fs, hadd⟩ := State.script_extends _ (.start (a ++ "\n") w)
    obtain ⟨hworkspace, hreport⟩ := hfront.reads hadd hclean hread hlead (by rw [hsplice.second, List.append_assoc]) hsplice.finish
    rw [hreport, List.append_nil] at hscript
    refine ⟨fun _ => ⟨?_, congrArg Prod.snd hscript⟩, fun ⟨d, hd, hline⟩ => absurd hline (hlines d hd)⟩
    exact (congrArg (fun r => r.1.workspace) hscript).trans hworkspace
  | passes hfront hscript hbreak =>
    refine ⟨fun hno => absurd hbreak hno, fun _ => ?_⟩
    exact (congrArg (fun s => s.workspace.functions) hscript).trans (hfront.passes htail)

/-- Behind a group and a block that are not closed, a malformed literal and a value that is missing a function is read. -/
theorem Workspace.read_join_function_unclosed :
    let w := Workspace.new .empty {}
    let a := "x = (1; 2.3.4\n" ++ r"function g(y) { if (y) { z ="
    let f := "// doubles\nfunction f(p)\n{ return p + p }"
    ¬BreaksOff w a ∧ (w.read (a ++ "\n")).diagnostics.length = 3 ∧ ∃ definition, (w.read f).workspace.functions = [definition] ∧
      (w.read (a ++ "\n" ++ f)).workspace = (w.read (a ++ "\n")).workspace.addFunction definition ∧
      (w.read (a ++ "\n" ++ f)).diagnostics = (w.read (a ++ "\n")).diagnostics := by
  intro w a f
  have hends : ¬BreaksOff w a := by decide +kernel
  obtain ⟨definition, hone⟩ : ∃ definition, (w.read f).workspace.functions = [definition] :=
    List.length_eq_one_iff.mp (by decide +kernel)
  have hjoin := Workspace.read_join_function w a f (by decide +kernel) (List.length_eq_zero_iff.mp (by decide +kernel)) hone
  exact ⟨hends, by decide +kernel, definition, hone, hjoin.1 hends⟩

/-- A function is lost behind a condition without a branch, behind another function without a body and behind the word for another
branch. -/
theorem Workspace.read_join_function_lost :
    let w := Workspace.new .empty {}
    let f := "function f() {}"
    (w.read f).diagnostics = [] ∧ (w.read f).workspace.globals = [] ∧ (w.read f).workspace.functions.map Function.name = ["f"] ∧
      Grammar.closesBlocks 0 (TokenStream.ofSource f).tokens = true ∧
      ∀ a ∈ ["if (x)", "function g()", "if (x) y else"], (w.read (a ++ "\n" ++ f)).workspace.functions = [] := by
  decide +kernel

end Offside
