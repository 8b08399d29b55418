import Offside.Proofs.Grammar.Rounds

/-!
# What reading leaves alone

A caller may read tokens and call productions in any order, also where they do not belong. No such call changes the workspace, whether
it succeeds or fails: what it opens it closes again, and it stores nothing. Storing is what the rounds of a script do, for one construct
at a time that has been read as a whole. `Round` says what a round stores and reports, and `Run` puts rounds together up to the end of
the input; both are about productions and single tokens, and no bound occurs in them.
-/

namespace Offside

open Production

/-! ## Calls -/

/-- A function is made of steps, and leaves no more tokens than there were. -/
theorem Agree.function {n : Nat} : Agree n Grammar.function Grammar.function :=
  fun s hs => .function_of_advance (Agree.advance s hs)

namespace Grammar

/-- What can be asked for: the next token, or one of the productions. -/
inductive Call where
  | advance
  | primary
  | expression
  | operations (least : Nat) (left : Expr)
  | reference
  | conditional
  | block
  | function
  | topLevel

namespace Call

/-- What a call yields if it succeeds. -/
def Yield : Call → Type
  | advance => Unit
  | function | topLevel => Function
  | _ => Expr

/-- The production that is called. -/
def production : (c : Call) → Production c.Yield
  | advance => Production.advance
  | primary => Grammar.primary
  | expression => Grammar.expression
  | operations least left => Grammar.operations least left
  | reference => Grammar.reference
  | conditional => Grammar.conditional
  | block => Grammar.block
  | function => Grammar.function
  | topLevel => Grammar.topLevel

/-- The state that a call leaves, whether it succeeds or fails. -/
def leaves (c : Call) (s : State) : State :=
  match c.production s with
  | .ok _ t | .error _ t => t

/-- A call leads where steps lead. -/
theorem agree (c : Call) (n : Nat) : Agree n c.production c.production := by
  have hprimary := Agree.primary n
  cases c with
  | advance => exact Agree.advance
  | primary => exact hprimary
  | expression => exact hprimary.expressionWith
  | operations least left => exact hprimary.operationsWith least left
  | reference => exact fun s hs => AgreeAt.referenceWith hprimary (Nat.le_succ_of_le hs)
  | conditional => exact fun s hs => AgreeAt.conditionalWith hprimary (Agree.advance s hs)
  | block => exact fun s hs => AgreeAt.blockWith hprimary (Nat.le_succ_of_le hs)
  | function => exact Agree.function
  | topLevel => exact Agree.topLevel

section

variable {c : Call} {s t : State}

/-- A call that succeeds is made of steps. -/
theorem steps {a : c.Yield} (h : c.production s = .ok a t) : Steps s t := by
  have hfollows := (c.agree s.remaining s (Nat.le_refl _)).follows
  rw [h] at hfollows
  exact hfollows

/-- A call that fails is made of steps up to the one that fails. -/
theorem fails {d : Diagnostic} (h : c.production s = .error d t) : Fails s d t := by
  have hfollows := (c.agree s.remaining s (Nat.le_refl _)).follows
  rw [h] at hfollows
  exact hfollows

end

/-- A call leaves the workspace as it was, and the end of the input at the end of the stream only. -/
theorem leaves_frame (c : Call) (s : State) : (c.leaves s).workspace = s.workspace ∧ (Proper s → Proper (c.leaves s)) := by
  unfold leaves
  cases h : c.production s with
  | ok a t => exact ⟨(steps h).workspace_eq, fun hs => ((steps h).reads hs).1⟩
  | error d t => exact ⟨(fails h).leaves.1, (fails h).leaves.2.2⟩

end Call

/-- An expression outside functions has the prototype that the workspace has for it. -/
theorem topLevel_prototype {s t : State} {g : Function} (h : topLevel s = .ok g t) : g.prototype = s.workspace.globalPrototype := by
  obtain ⟨body, u, hbody, hrest⟩ := bind_eq_ok.mp h
  cases hrest
  rw [(Call.steps (c := .expression) hbody).workspace_eq]

end Grammar

namespace State

/-- The state behind a row of calls, each of which may succeed or fail. -/
def behind (s : State) : List Grammar.Call → State
  | [] => s
  | c :: calls => (c.leaves s).behind calls

/-- No row of calls changes the workspace or breaks a proper state. -/
theorem behind_frame (calls : List Grammar.Call) (s : State) :
    (s.behind calls).workspace = s.workspace ∧ (Proper s → Proper (s.behind calls)) := by
  induction calls generalizing s with
  | nil => exact ⟨rfl, id⟩
  | cons c calls ih =>
    obtain ⟨hw, hp⟩ := c.leaves_frame s
    obtain ⟨hw', hp'⟩ := ih (c.leaves s)
    exact ⟨hw'.trans hw, hp' ∘ hp⟩

/-! ## Rounds -/

/-- `Passes s ds t`: the lookahead of `s` is passed over, and so are the malformed literals behind it, which `ds` are about; the token
behind them is the lookahead of `t`. -/
inductive Passes : State → List Diagnostic → State → Prop where
  | token {s t : State} : advance s = .ok () t → Passes s [] t
  | malformed {s t u : State} {d : Diagnostic} {ds : List Diagnostic} : advance s = .error d t → Passes (t.report d) ds u →
      Passes s (d :: ds) u

/-- `Round s gs fs ds t`: a round of a script leads from `s` to `t`. It stores the expressions `gs` and the functions `fs` and reports
`ds`. -/
inductive Round : State → List Function → List Function → List Diagnostic → State → Prop where
  | separator {s t : State} {ds : List Diagnostic} : s.current = .statementEnd → Passes s ds t → Round s [] [] ds t
  | expression {s t : State} {g : Function} : s.current ≠ .endOfInput → s.current ≠ .statementEnd →
      s.current ≠ .keyword .function → Grammar.topLevel s = .ok g t →
      Round s [g] [] [] { t with workspace := t.workspace.addGlobal g }
  | function {s t : State} {f : Function} : s.current = .keyword .function → Grammar.function s = .ok f t →
      Round s [] [f] [] { t with workspace := t.workspace.addFunction f }
  | failed {s t u : State} {d : Diagnostic} {ds : List Diagnostic} : s.current ≠ .endOfInput → s.current ≠ .statementEnd →
      s.construct = .error d t → Passes (t.report d) ds u → Round s [] [] (d :: ds) u

/-- `Run s gs fs ds t`: the rounds from `s` on come to the end of the input in `t`. Together they store the expressions `gs` and the
functions `fs` and report `ds`. -/
inductive Run : State → List Function → List Function → List Diagnostic → State → Prop where
  | ended {s : State} : s.current = .endOfInput → Run s [] [] [] s
  | round {s t u : State} {gs fs gs' fs' : List Function} {ds ds' : List Diagnostic} : Round s gs fs ds t →
      Run t gs' fs' ds' u → Run s (gs ++ gs') (fs ++ fs') (ds ++ ds') u

/-- Passing over a token reports the malformed literals in front of it. -/
theorem passes (s : State) : Passes s s.pass.2 s.pass.1 := by
  have hok : ∀ {s t : State}, advance s = .ok () t → Passes s s.pass.2 s.pass.1 := by
    intro s t ha
    rw [pass_of_ok ha]
    exact .token ha
  generalize hi : s.stream.items = items
  induction items generalizing s with
  | nil => exact hok (advance_end hi)
  | cons i is ih =>
    cases hl : i.lexed with
    | token token => exact hok (advance_token hi hl)
    | malformed literal =>
      have ha := advance_malformed hi hl
      rw [pass_of_error ha]
      exact .malformed ha (ih _ (congrArg List.tail hi))

/-- A script is a run of rounds. -/
theorem script_run (s : State) (hs : Proper s) : ∃ gs fs, Run s gs fs s.script.2 s.script.1 := by
  induction s, hs using inductRounds with
  | ended s hs hend =>
    rw [script_end hend]
    exact ⟨[], [], .ended hend⟩
  | separator s hs hsep ih =>
    obtain ⟨gs, fs, hrun⟩ := ih
    rw [script_separator hs hsep]
    exact ⟨gs, fs, .round (.separator hsep s.passes) hrun⟩
  | stored s t hs hend hsep hc ih =>
    obtain ⟨gs, fs, hrun⟩ := ih
    rw [script_stored hs hend hsep hc]
    rcases construct_ok_cases hc with ⟨hword, f, u, hf, rfl⟩ | ⟨hword, g, u, hg, rfl⟩
    · exact ⟨gs, f :: fs, .round (.function hword hf) hrun⟩
    · exact ⟨g :: gs, fs, .round (.expression hend hsep hword hg) hrun⟩
  | failed s d t hs hend hsep hc ih =>
    obtain ⟨gs, fs, hrun⟩ := ih
    rw [script_failed hs hend hsep hc]
    exact ⟨gs, fs, .round (.failed hend hsep hc (t.report d).passes) hrun⟩

/-- A construct that fails stores nothing. -/
theorem construct_error_workspace {s t : State} {d : Diagnostic} (h : s.construct = .error d t) : t.workspace = s.workspace := by
  unfold construct at h
  split at h
  · cases hf : Grammar.function s with
    | ok f u =>
      rw [hf] at h
      cases h
    | error e u =>
      rw [hf] at h
      cases h
      exact (Grammar.Call.fails (c := .function) hf).leaves.1
  · cases hg : Grammar.topLevel s with
    | ok g u =>
      rw [hg] at h
      cases h
    | error e u =>
      rw [hg] at h
      cases h
      exact (Grammar.Call.fails (c := .topLevel) hg).leaves.1

/-- Passing over a token stores nothing. -/
theorem Passes.workspace_eq {s t : State} {ds : List Diagnostic} (h : Passes s ds t) : t.workspace = s.workspace := by
  induction h with
  | token ha => exact (Steps.read ha (.refl _)).workspace_eq
  | malformed ha _ ih =>
    obtain ⟨_, _, _, _, _, rfl, _⟩ := advance_error_cases ha
    exact ih

/-- A round adds what it stores to the workspace, and changes nothing else in it. -/
theorem Round.workspace_eq {s t : State} {gs fs : List Function} {ds : List Diagnostic} (h : Round s gs fs ds t) :
    t.workspace = s.workspace.extend gs fs := by
  cases h with
  | separator _ hpasses => rw [Workspace.extend_nil, hpasses.workspace_eq]
  | @expression u _ _ _ _ hg =>
    have hsteps : Steps s u := Grammar.Call.steps (c := .topLevel) hg
    rw [Workspace.addGlobal_eq_extend, hsteps.workspace_eq]
  | @function u _ _ hf =>
    have hsteps : Steps s u := Grammar.Call.steps (c := .function) hf
    rw [Workspace.addFunction_eq_extend, hsteps.workspace_eq]
  | failed _ _ hc hpasses =>
    rw [Workspace.extend_nil, hpasses.workspace_eq, ← construct_error_workspace hc]
    rfl

/-- A run adds what its rounds store. -/
theorem Run.workspace_eq {s t : State} {gs fs : List Function} {ds : List Diagnostic} (h : Run s gs fs ds t) :
    t.workspace = s.workspace.extend gs fs := by
  induction h with
  | ended => rw [Workspace.extend_nil]
  | round hround _ ih => rw [ih, hround.workspace_eq, Workspace.extend_extend]

end State

/-- Productions leave the workspace alone. Behind any row of calls, one more call keeps the number of open blocks, all that is stored,
the external names and the prototype of expressions outside functions, whether it succeeds or fails; and an expression outside
functions gets the prototype with the name that the workspace was given. What reading a source adds are the constructs that its rounds
have read as a whole, a construct that fails leaves all that is stored as it was, and as many blocks are open behind the source as
before it. -/
theorem Workspace.read_frame (w : Workspace) (source : String) :
    (∀ (calls : List Grammar.Call) (c : Grammar.Call),
      let s := (State.start source w).behind calls
      let t := c.leaves s
      t.workspace.depth = s.workspace.depth ∧ t.workspace.globals = s.workspace.globals ∧
        t.workspace.functions = s.workspace.functions ∧ t.workspace.externals = s.workspace.externals ∧
        t.workspace.globalPrototype = s.workspace.globalPrototype ∧
        ∀ g u, Grammar.topLevel s = .ok g u → g.prototype = ⟨w.globalName, []⟩) ∧
    (∃ gs fs t, State.Run (.start source w) gs fs (w.read source).diagnostics t ∧ t.workspace = (w.read source).workspace ∧
      (w.read source).workspace = w.extend gs fs) ∧
    (∀ (s t : State) (d : Diagnostic), s.construct = .error d t →
      t.workspace.globals = s.workspace.globals ∧ t.workspace.functions = s.workspace.functions) ∧
    (w.read source).workspace.depth = w.depth := by
  obtain ⟨hworkspace, hdiagnostics⟩ := w.read_eq_script source
  obtain ⟨gs, fs, hrun⟩ := (State.start source w).script_run (.start source w)
  rw [← hdiagnostics] at hrun
  have hextend : (w.read source).workspace = w.extend gs fs := hworkspace.trans hrun.workspace_eq
  refine ⟨fun calls c => ?_, ⟨gs, fs, _, hrun, hworkspace.symm, hextend⟩, fun s t d hc => ?_, ?_⟩
  · obtain ⟨hbehind, _⟩ := State.behind_frame calls (.start source w)
    obtain ⟨hleaves, _⟩ := c.leaves_frame ((State.start source w).behind calls)
    intro s t
    rw [hleaves]
    refine ⟨rfl, rfl, rfl, rfl, rfl, fun g u hg => ?_⟩
    rw [Grammar.topLevel_prototype hg, hbehind]
    rfl
  · rw [State.construct_error_workspace hc]
    exact ⟨rfl, rfl⟩
  · rw [hextend]
    rfl

/-- Blocks that are not closed, inside a function and a call that both fail, and one that is closed by the end of the input. -/
example : ((Workspace.new .empty {}).read r"function f() { if (a) { f({ 1 ) 2; { 3").workspace.depth = 0 := by
  decide +kernel

end Offside
