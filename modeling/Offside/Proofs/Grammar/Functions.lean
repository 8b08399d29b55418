import Offside.Proofs.Grammar.Rounds

/-!
# How many functions a source holds

Nothing but a function begins with the word `function`, and no expression reads it: an expression stops in front of it. So a script
without diagnostics stores as many functions as there are such words, and a script that meets none of them stores no function, whatever
else is wrong.
-/

namespace Offside

open Production

/-! ## The words in front of functions -/

namespace Grammar

/-- Whether a symbol stands for pieces in which there are no functions. -/
def Symbol.lacksFunctions : Symbol → Bool
  | .items x | .list x => x.lacksFunctions
  | .function | .program => false
  | _ => true

/-- A piece without functions does not hold the word that they begin with. -/
theorem Derives.count_eq {x : Symbol} {ts us : List Token} (h : Derives x ts us) (hx : x.lacksFunctions = true) :
    ts.count (.keyword .function) = us.count (.keyword .function) := by
  induction h with
  | noSeparator | emptyList | noOperation | noOtherwise | beforeFunction | beforeEnd => rfl
  | function | programEnd | programSeparator | programFunction | programExpression => cases hx
  | name | number | bareName | closed => rw [List.count_cons_of_ne (by simp)]
  | lastItem _ ih | list _ ih => exact ih hx
  | primaryBlock _ ih => exact ih rfl
  | separator _ ih | ret _ ih | block _ ih | statementSeparator _ ih => rw [List.count_cons_of_ne (by simp), ih rfl]
  | expression _ _ ih₁ ih₂ | statement _ _ ih₁ ih₂ => rw [ih₁ rfl, ih₂ rfl]
  | item _ _ ih₁ ih₂ => rw [ih₁ hx, List.count_cons_of_ne (by simp), ih₂ hx]
  | operation _ _ _ ih₁ ih₂ | otherwise _ _ ih₁ ih₂ => rw [List.count_cons_of_ne (by simp), ih₁ rfl, ih₂ rfl]
  | grouping _ ih | call _ _ ih | memberCall _ _ _ ih | declaration _ _ ih => simpa [List.count_cons] using ih rfl
  | condition _ _ _ _ _ ih₁ ih₂ ih₃ ih₄ ih₅ =>
    have hbranches := ((ih₂ rfl).trans (ih₃ rfl)).trans ((ih₄ rfl).trans (ih₅ rfl))
    have hcondition := ih₁ rfl
    rw [List.count_cons_of_ne (by simp), hbranches] at hcondition
    simpa [List.count_cons] using hcondition

/-- A function holds the word that it begins with, and no other. -/
theorem Derives.function_count {ts us : List Token} (h : Derives .function ts us) :
    ∃ tail, ts = .keyword .function :: tail ∧ tail.count (.keyword .function) = us.count (.keyword .function) := by
  cases h with
  | function n hparams hseparators hblock =>
    refine ⟨_, rfl, ?_⟩
    have hbody := (hseparators.count_eq rfl).trans (hblock.count_eq rfl)
    have hheader := hparams.count_eq rfl
    rw [List.count_cons_of_ne (by simp), hbody] at hheader
    simpa [List.count_cons] using hheader

end Grammar

/-! ## Scripts without diagnostics -/

/-- What has been added to a workspace can be told from it. -/
theorem Workspace.extend_inj {w : Workspace} {gs fs gs' fs' : List Function} (h : w.extend gs fs = w.extend gs' fs') :
    gs = gs' ∧ fs = fs' :=
  ⟨List.append_cancel_left (congrArg Workspace.globals h), List.append_cancel_left (congrArg Workspace.functions h)⟩

namespace State

variable {s t : State} {ts : List Token}

/-- A construct that is stored is a function if it begins with the word for one, and an expression otherwise. -/
theorem construct_stores (h : s.construct = .ok () t) (hend : s.current ≠ .endOfInput) :
    (s.current = .keyword .function ∧ ∃ f, t.workspace = s.workspace.extend [] [f]) ∨
      (s.current ≠ .keyword .function ∧ ∃ f, t.workspace = s.workspace.extend [f] []) := by
  rcases construct_ok_cases h with ⟨hc, f, u, hf, rfl⟩ | ⟨hc, f, u, hf, rfl⟩
  · have hsteps := (AgreeAt.function (Nat.le_succ _) hend).follows
    rw [hf] at hsteps
    have hw : u.workspace = s.workspace := Steps.workspace_eq hsteps
    exact Or.inl ⟨hc, f, by rw [Workspace.addFunction_eq_extend, hw]⟩
  · have hsteps := (Agree.topLevel s (Nat.le_refl _)).follows
    rw [hf] at hsteps
    have hw : u.workspace = s.workspace := Steps.workspace_eq hsteps
    exact Or.inr ⟨hc, f, by rw [Workspace.addGlobal_eq_extend, hw]⟩

/-- What a construct holds of the words that functions begin with, and what it adds to the workspace. -/
theorem construct_count {token : Token} (hs : Sees s (token :: ts)) (h : s.construct = .ok () t) : ∃ us, Sees t us ∧
    ((token = .keyword .function ∧ ts.count (.keyword .function) = us.count (.keyword .function) ∧
        ∃ f, t.workspace = s.workspace.extend [] [f]) ∨
      ((token :: ts).count (.keyword .function) = us.count (.keyword .function) ∧ ∃ f, t.workspace = s.workspace.extend [f] [])) := by
  obtain ⟨us, hus, hderives⟩ := construct_derives hs h
  refine ⟨us, hus, ?_⟩
  rcases construct_stores h hs.current_ne_end with ⟨hc, hadd⟩ | ⟨hc, hadd⟩
  · have htoken : token = .keyword .function := hs.current_eq.symm.trans hc
    subst htoken
    have hfunction := hderives.resolve_right fun hexpression => hexpression.not_expression rfl
    obtain ⟨tail, heq, hcount⟩ := hfunction.function_count
    cases heq
    exact Or.inl ⟨rfl, hcount, hadd⟩
  · refine Or.inr ⟨?_, hadd⟩
    have hexpression := hderives.resolve_left fun hfunction => by
      obtain ⟨tail, heq, _⟩ := hfunction.function_count
      cases heq
      exact hc hs.current_eq
    exact hexpression.count_eq rfl

/-- A script without diagnostics stores as many functions as there are words that functions begin with. If it stores nothing else,
then nothing but separators is in front of the first of them. -/
theorem script_count (hp : Proper s) (hs : Sees s ts) (hclean : s.script.2 = []) {gs fs : List Function}
    (hadd : s.script.1.workspace = s.workspace.extend gs fs) :
    ts.count (.keyword .function) = fs.length ∧
      (gs = [] → ∀ token ∈ ts.find? (· ≠ .statementEnd), token = .keyword .function) := by
  induction s, hp using inductRounds generalizing ts gs fs with
  | ended s hp hend =>
    cases ts with
    | cons token ts => exact absurd hend hs.current_ne_end
    | nil =>
      rw [script_end hend] at hadd
      obtain ⟨_, hfs⟩ := Workspace.extend_inj ((Workspace.extend_nil _).trans hadd)
      exact ⟨congrArg List.length hfs, by simp⟩
  | separator s hp hsep ih =>
    cases ts with
    | nil => exact absurd (hs.current_nil.symm.trans hsep) (by simp)
    | cons token ts =>
      obtain rfl : token = .statementEnd := hs.current_eq.symm.trans hsep
      obtain ⟨t, ha, ht⟩ := hs.advance
      have hpass := pass_of_ok ha
      rw [hpass] at ih
      rw [script_separator hp hsep, hpass] at hclean hadd
      have hw : t.workspace = s.workspace := (Steps.read ha (.refl t)).workspace_eq
      obtain ⟨hcount, hfirst⟩ := ih ht hclean (hw ▸ hadd)
      rw [List.count_cons_of_ne (by simp), List.find?_cons_of_neg (by simp)]
      exact ⟨hcount, hfirst⟩
  | stored s t hp hend hsep hc ih =>
    cases ts with
    | nil => exact absurd hs.current_nil hend
    | cons token ts =>
      rw [script_stored hp hend hsep hc] at hclean hadd
      obtain ⟨gs', fs', hadd'⟩ := script_extends t (construct_proper hc hend hp).1
      obtain ⟨us, hus, ⟨rfl, hcount, f, hw⟩ | ⟨hcount, f, hw⟩⟩ := construct_count hs hc
      · rw [hadd', hw, Workspace.extend_extend] at hadd
        obtain ⟨rfl, rfl⟩ := Workspace.extend_inj hadd
        refine ⟨?_, fun _ => by simp⟩
        rw [List.count_cons_self, hcount, (ih hus hclean hadd').1, List.length_append, Nat.add_comm]
        rfl
      · rw [hadd', hw, Workspace.extend_extend] at hadd
        obtain ⟨rfl, rfl⟩ := Workspace.extend_inj hadd
        refine ⟨hcount.trans (ih hus hclean hadd').1, fun hnone => ?_⟩
        cases hnone
  | failed s d t hp hend hsep hc ih =>
    rw [script_failed hp hend hsep hc] at hclean
    cases hclean

end State

/-! ## Scripts that meet no function -/

/-- The word that functions begin with is not to come. -/
structure LacksFunctions (s : State) : Prop where
  current : s.current ≠ .keyword .function
  items : ∀ i ∈ s.stream.items, i.lexed ≠ .token (.keyword .function)

namespace LacksFunctions

variable {s t : State}

/-- Whether functions are to come depends on the tokens to come only. -/
theorem congr (h : LacksFunctions s) (hstream : t.stream = s.stream) (hcurrent : t.current = s.current) : LacksFunctions t :=
  ⟨hcurrent ▸ h.current, hstream ▸ h.items⟩

/-- Behind the lookahead only the items count. -/
theorem of_advance (h : ∀ i ∈ s.stream.items, i.lexed ≠ .token (.keyword .function)) (ha : advance s = .ok () t) : LacksFunctions t := by
  rcases advance_ok_cases ha with ⟨hi, rfl⟩ | ⟨i, is, token, hi, hl, rfl⟩
  · exact ⟨by simp, h⟩
  · constructor
    · rintro rfl
      exact h i (by simp [hi]) hl
    · exact fun j hj => h j (List.mem_of_mem_tail hj)

/-- If no function was to come, none is to come behind some steps. -/
theorem of_steps (h : LacksFunctions s) (hsteps : Steps s t) : LacksFunctions t := by
  induction hsteps with
  | refl => exact h
  | read ha _ ih => exact ih (.of_advance h.items ha)
  | note _ _ ih => exact ih (h.congr rfl rfl)
  | block _ _ ihin ihout => exact ihout ((ihin (h.congr rfl rfl)).congr rfl rfl)

/-- If no function was to come, none is to come behind a failure. -/
theorem of_fails {d : Diagnostic} (h : LacksFunctions s) (hfails : Fails s d t) : LacksFunctions t := by
  induction hfails with
  | malformed ha =>
    obtain ⟨i, is, literal, hi, _, rfl, _⟩ := advance_error_cases ha
    exact ⟨h.current, fun j hj => h.items j (List.mem_of_mem_tail hj)⟩
  | unexpected | invalid => exact h
  | after hsteps _ ih => exact ih (h.of_steps hsteps)
  | block _ ih => exact (ih (h.congr rfl rfl)).congr rfl rfl

/-- The lookahead that is passed over does not count. -/
theorem of_pass (h : ∀ i ∈ s.stream.items, i.lexed ≠ .token (.keyword .function)) : LacksFunctions s.pass.1 := by
  generalize hitems : s.stream.items = items
  induction items generalizing s with
  | nil =>
    rw [State.pass_end hitems]
    exact ⟨by simp, h⟩
  | cons i is ih =>
    cases ha : advance s with
    | ok _ t =>
      rw [State.pass_of_ok ha]
      exact .of_advance h ha
    | error d t =>
      rw [State.pass_of_error ha]
      obtain ⟨j, js, _, _, _, rfl, _⟩ := advance_error_cases ha
      exact ih (s := (s.take j).report d) (fun k hk => h k (List.mem_of_mem_tail hk)) (congrArg List.tail hitems)

/-- A script that does not meet the word for a function stores no function. -/
theorem script (h : LacksFunctions s) (hs : Proper s) : s.script.1.workspace.functions = s.workspace.functions := by
  induction s, hs using State.inductRounds with
  | ended s hs hend => rw [State.script_end hend]
  | separator s hs hsep ih =>
    rw [State.script_separator hs hsep, ih (.of_pass h.items), (State.pass_leaves hs).1]
  | stored s t hs hend hsep hc ih =>
    obtain ⟨u, hsteps, hstream, hcurrent, _⟩ := State.construct_steps hc hend
    obtain ⟨_, f, hadd⟩ := (State.construct_stores hc hend).resolve_left fun hfunction => h.current hfunction.1
    rw [State.script_stored hs hend hsep hc, ih ((h.of_steps hsteps).congr hstream hcurrent), hadd]
    exact List.append_nil _
  | failed s d t hs hend hsep hc ih =>
    have hfailed := h.of_fails (State.construct_fails hc hend)
    rw [State.script_failed hs hend hsep hc, ih (.of_pass hfailed.items), (State.failed_leaves hc hend hs).2.1]

end LacksFunctions

end Offside
