import Offside.Proofs.Grammar.Acceptance
import Offside.Proofs.Grammar.Simulation

/-!
# The rounds of a script

A script goes in rounds: a separator is passed over, a construct is stored, or a construct fails and the lookahead is passed over.
Every round leaves fewer tokens, so the bound of a script is never met, and `State.script` satisfies one equation for each kind of
round (`script_separator`, `script_stored`, `script_failed`). What holds of all scripts is proved by induction on the rounds.

What a script adds to a workspace is kept apart from what was there before as `Workspace.extend`.
-/

namespace Offside

open Production

/-! ## What steps and failures leave -/

/-- Steps leave no more tokens than there were. -/
theorem Steps.remaining_le {s t : State} (h : Steps s t) : t.remaining ≤ s.remaining := by
  induction h with
  | refl => exact Nat.le_refl _
  | read ha _ ih => exact Nat.le_trans ih (advance_remaining_le ha)
  | note _ _ ih => exact ih
  | block _ _ ihin ihout => exact Nat.le_trans ihout ihin

/-- Steps read tokens off the front of the stream. -/
theorem Steps.items {s t : State} (h : Steps s t) :
    ∃ read : List Item, s.stream.items = read ++ t.stream.items ∧ ∀ i ∈ read, ∃ token, i.lexed = .token token := by
  induction h with
  | refl => exact ⟨[], rfl, by simp⟩
  | read ha _ ih =>
    obtain ⟨read, heq, htokens⟩ := ih
    rcases advance_ok_cases ha with ⟨hi, rfl⟩ | ⟨i, is, token, hi, hl, rfl⟩
    · exact ⟨read, heq, htokens⟩
    · refine ⟨i :: read, ?_, ?_⟩
      · simp only [State.take, TokenStream.tail_items, hi, List.tail_cons] at heq
        rw [hi, heq, List.cons_append]
      · rintro j (_ | ⟨_, hj⟩)
        · exact ⟨token, hl⟩
        · exact htokens j hj
  | note _ _ ih => exact ih
  | block _ _ ihin ihout =>
    obtain ⟨read, heq, htokens⟩ := ihin
    obtain ⟨read', heq', htokens'⟩ := ihout
    refine ⟨read ++ read', ?_, fun i hi => (List.mem_append.mp hi).elim (htokens i) (htokens' i)⟩
    exact heq.trans ((congrArg (read ++ ·) heq').trans (List.append_assoc _ _ _).symm)

/-- A malformed literal is reported where it has been read, behind tokens. -/
theorem Fails.items {s t : State} {d : Diagnostic} (h : Fails s d t) {literal : String} (hd : d.cause = .malformedNumber literal) :
    ∃ read i, s.stream.items = read ++ i :: t.stream.items ∧ (∀ j ∈ read, ∃ token, j.lexed = .token token) ∧
      i.lexed = .malformed literal := by
  induction h with
  | malformed ha =>
    obtain ⟨i, is, literal', hi, hl, rfl, rfl⟩ := advance_error_cases ha
    cases hd
    refine ⟨[], i, ?_, by simp, hl⟩
    simp [State.take, hi]
  | unexpected s expected =>
    rw [State.unexpected] at hd
    dsimp only at hd
    split at hd <;> cases hd
  | invalid => cases hd
  | after hsteps _ ih =>
    obtain ⟨read, heq, htokens⟩ := hsteps.items
    obtain ⟨read', i, heq', htokens', hl⟩ := ih hd
    exact ⟨read ++ read', i, by rw [heq, heq', List.append_assoc], fun j hj => (List.mem_append.mp hj).elim (htokens j) (htokens' j), hl⟩
  | block _ ih => exact ih hd

/-- Taking an item keeps the state in order. -/
theorem take_proper {s : State} (h : Proper s) {i : Item} {is : List Item} (hi : s.stream.items = i :: is) : Proper (s.take i) where
  finished hend := by
    have hnil := h.finished hend
    rw [hi] at hnil
    cases hnil
  tokens j hj := h.tokens j (List.mem_of_mem_tail hj)

/-- A failure leaves the workspace as it was, and no more tokens than there were. -/
theorem Fails.leaves {s t : State} {d : Diagnostic} (h : Fails s d t) :
    t.workspace = s.workspace ∧ t.remaining ≤ s.remaining ∧ (Proper s → Proper t) := by
  induction h with
  | malformed ha =>
    obtain ⟨i, is, literal, hi, _, rfl, _⟩ := advance_error_cases ha
    exact ⟨rfl, Nat.add_le_add_right (Nat.sub_le _ _) _, fun hp => take_proper hp hi⟩
  | unexpected | invalid => exact ⟨rfl, Nat.le_refl _, id⟩
  | after hsteps _ ih =>
    obtain ⟨hw, hr, hp⟩ := ih
    exact ⟨hw.trans hsteps.workspace_eq, Nat.le_trans hr hsteps.remaining_le, fun h => hp (hsteps.reads h).1⟩
  | @block s t _ _ ih =>
    obtain ⟨hw, hr, hp⟩ := ih
    refine ⟨?_, hr, fun h => (hp (h.congr rfl rfl)).congr rfl rfl⟩
    rw [State.leave, hw]
    rfl

/-! ## What a script adds -/

/-- A workspace with more expressions outside functions and more functions. -/
def Workspace.extend (w : Workspace) (globals functions : List Function) : Workspace :=
  { w with globals := w.globals ++ globals, functions := w.functions ++ functions }

namespace Workspace

@[simp] theorem extend_nil (w : Workspace) : w.extend [] [] = w := by
  simp [extend]

@[simp] theorem extend_extend (w : Workspace) (gs fs gs' fs' : List Function) :
    (w.extend gs fs).extend gs' fs' = w.extend (gs ++ gs') (fs ++ fs') := by
  simp [extend]

theorem addGlobal_eq_extend (w : Workspace) (f : Function) : w.addGlobal f = w.extend [f] [] := by
  simp [addGlobal, extend]

theorem addFunction_eq_extend (w : Workspace) (f : Function) : w.addFunction f = w.extend [] [f] := by
  simp [addFunction, extend]

end Workspace

namespace State

/-! ## Passing over the lookahead -/

/-- A malformed literal is passed over, and what is behind it is passed over too. -/
theorem pass_of_error {s t : State} {d : Diagnostic} (h : advance s = .error d t) :
    s.pass = ((t.report d).pass.1, d :: (t.report d).pass.2) := by
  obtain ⟨i, is, literal, hi, _, rfl, _⟩ := advance_error_cases h
  have hsize : s.stream.size = s.stream.tail.size + 1 := by
    rw [TokenStream.tail_size, s.stream.size_eq, hi, List.length_cons, Nat.add_sub_cancel]
  rw [pass, passUpTo, h, hsize]
  rfl

/-- Passing over the lookahead keeps the workspace and uses up the lookahead. -/
theorem pass_leaves {s : State} (hs : Proper s) :
    s.pass.1.workspace = s.workspace ∧ Proper s.pass.1 ∧ (s.current ≠ .endOfInput → s.pass.1.remaining < s.remaining) ∧
      s.pass.1.remaining ≤ s.remaining := by
  generalize hn : s.stream.size = n
  induction n using Nat.strongRecOn generalizing s with
  | ind n ih =>
    cases ha : advance s with
    | ok _ t =>
      rw [pass_of_ok ha]
      exact ⟨(Steps.read ha (.refl t)).workspace_eq, hs.advance ha, advance_remaining_lt ha, advance_remaining_le ha⟩
    | error d t =>
      rw [pass_of_error ha]
      obtain ⟨i, is, literal, hi, _, rfl, _⟩ := advance_error_cases ha
      have hsize := s.stream.size_eq
      rw [hi, List.length_cons] at hsize
      have hlt : ((s.take i).report d).stream.size < n := by
        show s.stream.tail.size < n
        rw [TokenStream.tail_size]
        omega
      obtain ⟨hw, hp, _, hr⟩ := ih _ hlt (s := (s.take i).report d) ((take_proper hs hi).congr rfl rfl) rfl
      have htake : ((s.take i).report d).remaining < s.remaining := by
        refine Nat.add_lt_add_right ?_ _
        show s.stream.tail.size < s.stream.size
        rw [TokenStream.tail_size]
        omega
      exact ⟨hw, hp, fun _ => Nat.lt_of_le_of_lt hr htake, Nat.le_trans hr (Nat.le_of_lt htake)⟩

/-! ## One construct -/

/-- A construct that fails leaves the workspace as it was. -/
theorem construct_fails {s t : State} {d : Diagnostic} (h : s.construct = .error d t) (hs : s.current ≠ .endOfInput) :
    Fails s d t := by
  rw [construct] at h
  split at h
  · have hfollows := (AgreeAt.function (Nat.le_succ _) hs).follows
    cases hf : Grammar.function s with
    | ok f u =>
      rw [hf] at h
      cases h
    | error d u =>
      rw [hf] at h hfollows
      cases h
      exact hfollows
  · have hfollows := (Agree.topLevel s (Nat.le_refl _)).follows
    cases hf : Grammar.topLevel s with
    | ok f u =>
      rw [hf] at h
      cases h
    | error d u =>
      rw [hf] at h hfollows
      cases h
      exact hfollows

/-- A construct that succeeds uses up a token at least. -/
theorem construct_proper {s t : State} (h : s.construct = .ok () t) (hs : s.current ≠ .endOfInput) (hp : Proper s) :
    Proper t ∧ t.remaining < s.remaining := by
  obtain ⟨u, hsteps, hstream, hcurrent, hlt⟩ := construct_steps h hs
  exact ⟨(hsteps.reads hp).1.congr hstream hcurrent, hlt⟩

/-- A construct that is stored has been reached by steps, and is one more expression or one more function. -/
theorem construct_follows {s t : State} (h : s.construct = .ok () t) (hs : s.current ≠ .endOfInput) :
    ∃ f u, Steps s u ∧
      (t = { u with workspace := u.workspace.extend [f] [] } ∨ t = { u with workspace := u.workspace.extend [] [f] }) := by
  rcases construct_ok_cases h with ⟨_, f, u, hf, rfl⟩ | ⟨_, f, u, hf, rfl⟩
  · have hfollows := (AgreeAt.function (Nat.le_succ _) hs).follows
    rw [hf] at hfollows
    exact ⟨f, u, hfollows, Or.inr (by rw [Workspace.addFunction_eq_extend])⟩
  · have hfollows := (Agree.topLevel s (Nat.le_refl _)).follows
    rw [hf] at hfollows
    exact ⟨f, u, hfollows, Or.inl (by rw [Workspace.addGlobal_eq_extend])⟩

/-- A construct that succeeds stores one thing, among the expressions or among the functions. -/
theorem construct_extends {s t : State} (h : s.construct = .ok () t) (hs : s.current ≠ .endOfInput) :
    ∃ f, t.workspace = s.workspace.extend [f] [] ∨ t.workspace = s.workspace.extend [] [f] := by
  obtain ⟨f, u, hsteps, rfl | rfl⟩ := construct_follows h hs
  · exact ⟨f, Or.inl (by rw [← hsteps.workspace_eq])⟩
  · exact ⟨f, Or.inr (by rw [← hsteps.workspace_eq])⟩

/-- A construct that succeeds never leaves the workspace as it was. -/
theorem construct_workspace_ne {s t : State} (h : s.construct = .ok () t) (hs : s.current ≠ .endOfInput) :
    t.workspace ≠ s.workspace := by
  obtain ⟨f, ht | ht⟩ := construct_extends h hs
  · exact fun heq => by simpa [Workspace.extend] using congrArg Workspace.globals (ht.symm.trans heq)
  · exact fun heq => by simpa [Workspace.extend] using congrArg Workspace.functions (ht.symm.trans heq)

/-- Behind a construct that fails the lookahead is passed over, and fewer tokens are left than there were. -/
theorem failed_leaves {s t : State} {d : Diagnostic} (h : s.construct = .error d t) (hs : s.current ≠ .endOfInput) (hp : Proper s) :
    Proper (t.report d).pass.1 ∧ (t.report d).pass.1.workspace = s.workspace ∧ (t.report d).pass.1.remaining < s.remaining := by
  obtain ⟨hw, hr, hp'⟩ := (construct_fails h hs).leaves
  have ht : Proper (t.report d) := (hp' hp).congr rfl rfl
  obtain ⟨hw', hproper, hlt, hle⟩ := pass_leaves ht
  refine ⟨hproper, hw'.trans hw, ?_⟩
  by_cases hend : t.current = .endOfInput
  · -- at the end of the input nothing is left, but the construct had a lookahead to begin with
    have hzero : (t.report d).remaining = 0 := by
      have hnil : t.stream.items = [] := (hp' hp).finished hend
      have hsize := t.stream.size_eq
      rw [hnil] at hsize
      simp [remaining, report, note, hend, hsize]
    have hpos := s.remaining_pos hs
    omega
  · exact Nat.lt_of_lt_of_le (hlt hend) hr

/-! ## The equations of a script -/

/-- The bound of a script is never met. -/
theorem scriptUpTo_congr (n : Nat) :
    ∀ {m : Nat} {s : State}, Proper s → s.remaining ≤ n → s.remaining ≤ m → scriptUpTo n s = scriptUpTo m s := by
  have hover : ∀ {s : State} (n : Nat), s.current = .endOfInput → scriptUpTo n s = (s, []) := by
    intro s n h
    cases n with
    | zero => rfl
    | succ n => rw [scriptUpTo, if_pos h]
  induction n with
  | zero =>
    intro m s _ hn _
    have hend := current_of_remaining_eq_zero (Nat.le_zero.mp hn)
    rw [hover 0 hend, hover m hend]
  | succ n ih =>
    intro m s hs hn hm
    by_cases hend : s.current = .endOfInput
    · rw [hover _ hend, hover m hend]
    have hpos := s.remaining_pos hend
    obtain ⟨m, rfl⟩ : ∃ i, m = i + 1 := ⟨m - 1, by omega⟩
    rw [scriptUpTo, scriptUpTo, if_neg hend, if_neg hend]
    by_cases hsep : s.current = .statementEnd
    · rw [if_pos hsep, if_pos hsep]
      obtain ⟨_, hp, hlt, _⟩ := pass_leaves hs
      have hlt := hlt hend
      dsimp only
      rw [ih (m := m) hp (by omega) (by omega)]
    · rw [if_neg hsep, if_neg hsep]
      cases hc : s.construct with
      | ok _ t =>
        obtain ⟨hp, hlt⟩ := construct_proper hc hend hs
        exact ih hp (by omega) (by omega)
      | error d t =>
        obtain ⟨hp, _, hlt⟩ := failed_leaves hc hend hs
        dsimp only
        rw [ih (m := m) hp (by omega) (by omega)]

/-- At the end of the input a script is over. -/
theorem script_end {s : State} (h : s.current = .endOfInput) : s.script = (s, []) := by
  rw [script]
  cases s.remaining with
  | zero => rfl
  | succ n => rw [scriptUpTo, if_pos h]

/-- A round takes at least one token, so a script in front of the end of the input has a round. -/
theorem script_succ {s : State} (hs : Proper s) : s.script = scriptUpTo (s.remaining + 1) s :=
  scriptUpTo_congr _ hs (Nat.le_refl _) (Nat.le_succ _)

/-- A separator is passed over, with the malformed literals behind it. -/
theorem script_separator {s : State} (hs : Proper s) (hsep : s.current = .statementEnd) :
    s.script = (s.pass.1.script.1, s.pass.2 ++ s.pass.1.script.2) := by
  have hend : s.current ≠ .endOfInput := by simp [hsep]
  obtain ⟨_, hp, _, hle⟩ := pass_leaves hs
  rw [script_succ hs, scriptUpTo, if_neg hend, if_pos hsep]
  dsimp only
  rw [scriptUpTo_congr _ hp hle (Nat.le_refl _)]
  rfl

/-- A construct that succeeds is stored, and the script goes on behind it. -/
theorem script_stored {s t : State} (hs : Proper s) (hend : s.current ≠ .endOfInput) (hsep : s.current ≠ .statementEnd)
    (hc : s.construct = .ok () t) : s.script = t.script := by
  obtain ⟨hp, hlt⟩ := construct_proper hc hend hs
  rw [script_succ hs, scriptUpTo, if_neg hend, if_neg hsep, hc]
  exact scriptUpTo_congr _ hp (Nat.le_of_lt hlt) (Nat.le_refl _)

/-- A construct that fails is reported, and the script goes on behind the next token. -/
theorem script_failed {s t : State} {d : Diagnostic} (hs : Proper s) (hend : s.current ≠ .endOfInput)
    (hsep : s.current ≠ .statementEnd) (hc : s.construct = .error d t) :
    s.script = ((t.report d).pass.1.script.1, d :: (t.report d).pass.2 ++ (t.report d).pass.1.script.2) := by
  obtain ⟨hp, _, hlt⟩ := failed_leaves hc hend hs
  rw [script_succ hs, scriptUpTo, if_neg hend, if_neg hsep, hc]
  dsimp only
  rw [scriptUpTo_congr _ hp (Nat.le_of_lt hlt) (Nat.le_refl _)]
  rfl

/-- What a script leads to behind the lookahead. -/
def passed (s : State) : State × List Diagnostic := (s.pass.1.script.1, s.pass.2 ++ s.pass.1.script.2)

/-- Behind the last token a script is at the end of the input. -/
theorem passed_end {s : State} (h : s.stream.items = []) :
    s.passed = ({ s with current := .endOfInput, position := s.stream.finish }, []) := by
  rw [passed, pass_end h]
  dsimp only
  rw [script_end rfl]
  rfl

/-- Behind the lookahead the script goes on at the next token. -/
theorem passed_of_ok {s t : State} (h : advance s = .ok () t) : s.passed = t.script := by
  rw [passed, pass_of_ok h]
  rfl

/-- Malformed literals behind the lookahead are reported one after the other. -/
theorem passed_of_error {s t : State} {d : Diagnostic} (h : advance s = .error d t) :
    s.passed = ((t.report d).passed.1, d :: (t.report d).passed.2) := by
  rw [passed, pass_of_error h]
  rfl

/-- Induction on the rounds of a script. -/
@[elab_as_elim]
theorem inductRounds {motive : (s : State) → Proper s → Prop} (ended : ∀ s hs, s.current = .endOfInput → motive s hs)
    (separator : ∀ s hs, s.current = .statementEnd → motive s.pass.1 (pass_leaves hs).2.1 → motive s hs)
    (stored : ∀ s t hs (hend : s.current ≠ .endOfInput), s.current ≠ .statementEnd → (hc : s.construct = .ok () t) →
      motive t (construct_proper hc hend hs).1 → motive s hs)
    (failed : ∀ s d t hs (hend : s.current ≠ .endOfInput), s.current ≠ .statementEnd → (hc : s.construct = .error d t) →
      motive (t.report d).pass.1 (failed_leaves hc hend hs).1 → motive s hs) (s : State) (hs : Proper s) : motive s hs := by
  generalize hn : s.remaining = n
  induction n using Nat.strongRecOn generalizing s with
  | ind n ih =>
    by_cases hend : s.current = .endOfInput
    · exact ended s hs hend
    by_cases hsep : s.current = .statementEnd
    · exact separator s hs hsep (ih _ (hn ▸ (pass_leaves hs).2.2.1 hend) _ _ rfl)
    cases hc : s.construct with
    | ok _ t => exact stored s t hs hend hsep hc (ih _ (hn ▸ (construct_proper hc hend hs).2) t _ rfl)
    | error d t => exact failed s d t hs hend hsep hc (ih _ (hn ▸ (failed_leaves hc hend hs).2.2) _ _ rfl)

/-- A script adds expressions and functions to the workspace, and changes nothing else in it. -/
theorem script_extends (s : State) (hs : Proper s) : ∃ gs fs, s.script.1.workspace = s.workspace.extend gs fs := by
  induction s, hs using inductRounds with
  | ended s hs hend => exact ⟨[], [], by rw [script_end hend, Workspace.extend_nil]⟩
  | separator s hs hsep ih =>
    obtain ⟨gs, fs, ih⟩ := ih
    exact ⟨gs, fs, by rw [script_separator hs hsep, ih, (pass_leaves hs).1]⟩
  | stored s t hs hend hsep hc ih =>
    obtain ⟨gs, fs, ih⟩ := ih
    obtain ⟨f, ht | ht⟩ := construct_extends hc hend
    · exact ⟨[f] ++ gs, [] ++ fs, by rw [script_stored hs hend hsep hc, ih, ht, Workspace.extend_extend]⟩
    · exact ⟨[] ++ gs, [f] ++ fs, by rw [script_stored hs hend hsep hc, ih, ht, Workspace.extend_extend]⟩
  | failed s d t hs hend hsep hc ih =>
    obtain ⟨gs, fs, ih⟩ := ih
    exact ⟨gs, fs, by rw [script_failed hs hend hsep hc, ih, (failed_leaves hc hend hs).2.1]⟩

end State

/-- Reading a source is its script. -/
theorem Workspace.read_eq_script (w : Workspace) (source : String) :
    (w.read source).workspace = (State.start source w).script.1.workspace ∧
      (w.read source).diagnostics = (State.start source w).script.2 := ⟨rfl, rfl⟩

/-! ## Two runs of a construct -/

namespace Simulation

variable {S : Simulation} {s t : State}

/-- Two runs read corresponding constructs. -/
inductive Constructs (S : Simulation) (s t : State) : Prop where
  /-- Both are stored. -/
  | stored {gs fs : List Function} {u v : State} :
      s.construct = .ok () { u with workspace := u.workspace.extend gs fs } →
      t.construct = .ok () { v with workspace := v.workspace.extend (gs.map (.renamed S.rename)) (fs.map (.renamed S.rename)) } →
      S.Rel u v → u.workspace = s.workspace → v.workspace = t.workspace → Constructs S s t
  /-- Both fail. -/
  | failed {d e : Diagnostic} {u v : State} : s.construct = .error d u → t.construct = .error e v → S.Err d e → S.Rel u v →
      Constructs S s t
  /-- The first goes beyond what the second is compared with. -/
  | beyond : Beyond S.kept s.construct → Constructs S s t

/-- In front of the same token two runs read corresponding constructs. -/
theorem constructs (h : S.Rel s t) (htoken : t.current = s.current) (hend : s.current ≠ .endOfInput) : S.Constructs s t := by
  have hend' : t.current ≠ .endOfInput := htoken ▸ hend
  by_cases hc : s.current = .keyword .function
  · have hc' : t.current = .keyword .function := htoken.trans hc
    have hsteps := (AgreeAt.function (Nat.le_succ _) hend).follows
    have hsteps' := (AgreeAt.function (Nat.le_succ _) hend').follows
    cases At.function h htoken hc with
    | @ok f u v hp hq hrel _ _ =>
      rw [hp] at hsteps
      rw [hq] at hsteps'
      have hu : u.workspace = s.workspace := Steps.workspace_eq hsteps
      have hv : v.workspace = t.workspace := Steps.workspace_eq hsteps'
      refine @Constructs.stored S s t [] [f] u v ?_ ?_ hrel hu hv
      · rw [State.construct, if_pos hc, hp, ← Workspace.addFunction_eq_extend]
      · rw [State.construct, if_pos hc', hq]
        exact congrArg (fun w => EStateM.Result.ok () { v with workspace := w }) (Workspace.addFunction_eq_extend _ _)
    | error hp hq herr hrel =>
      refine .failed ?_ ?_ herr hrel
      · rw [State.construct, if_pos hc, hp]
      · rw [State.construct, if_pos hc', hq]
    | beyond hp =>
      refine .beyond ?_
      rw [State.construct, if_pos hc]
      cases hr : Grammar.function s with
      | ok f u => rw [hr] at hp; exact hp
      | error d u => rw [hr] at hp; exact hp
  · have hc' : t.current ≠ .keyword .function := htoken ▸ hc
    have hsteps := (Agree.topLevel s (Nat.le_refl _)).follows
    have hsteps' := (Agree.topLevel t (Nat.le_refl _)).follows
    cases At.topLevel h with
    | @ok f u v hp hq hrel _ _ =>
      rw [hp] at hsteps
      rw [hq] at hsteps'
      have hu : u.workspace = s.workspace := Steps.workspace_eq hsteps
      have hv : v.workspace = t.workspace := Steps.workspace_eq hsteps'
      refine @Constructs.stored S s t [f] [] u v ?_ ?_ hrel hu hv
      · rw [State.construct, if_neg hc, hp, ← Workspace.addGlobal_eq_extend]
      · rw [State.construct, if_neg hc', hq]
        exact congrArg (fun w => EStateM.Result.ok () { v with workspace := w }) (Workspace.addGlobal_eq_extend _ _)
    | error hp hq herr hrel =>
      refine .failed ?_ ?_ herr hrel
      · rw [State.construct, if_neg hc, hp]
      · rw [State.construct, if_neg hc', hq]
    | beyond hp =>
      refine .beyond ?_
      rw [State.construct, if_neg hc]
      cases hr : Grammar.topLevel s with
      | ok f u => rw [hr] at hp; exact hp
      | error d u => rw [hr] at hp; exact hp

/-- A construct that the first run stores without going beyond its last tokens is stored by the second run too. -/
theorem Constructs.of_ok (h : S.Constructs s t) {s' : State} (hs : s.construct = .ok () s') (hkept : S.kept ≤ s'.remaining) :
    ∃ gs fs u v, s' = { u with workspace := u.workspace.extend gs fs } ∧ S.Rel u v ∧
      t.construct = .ok () { v with workspace := v.workspace.extend (gs.map (.renamed S.rename)) (fs.map (.renamed S.rename)) } := by
  cases h with
  | @stored gs fs u v hp hq hrel _ _ =>
    rw [hs] at hp
    cases hp
    exact ⟨gs, fs, u, v, rfl, hrel, hq⟩
  | failed hp =>
    rw [hs] at hp
    cases hp
  | beyond hp =>
    rw [hs] at hp
    exact absurd hp (Nat.not_lt.mpr hkept)

/-- If the first run may read all its tokens, it stores what the second stores. -/
theorem Constructs.of_second_ok (h : S.Constructs s t) (hkept : S.kept = 0) {t' : State} (ht : t.construct = .ok () t') :
    ∃ gs fs u v, s.construct = .ok () { u with workspace := u.workspace.extend gs fs } ∧ S.Rel u v ∧
      t' = { v with workspace := v.workspace.extend (gs.map (.renamed S.rename)) (fs.map (.renamed S.rename)) } := by
  cases h with
  | @stored gs fs u v hp hq hrel _ _ =>
    rw [ht] at hq
    cases hq
    exact ⟨gs, fs, u, v, hp, hrel, rfl⟩
  | failed _ hq =>
    rw [ht] at hq
    cases hq
  | beyond hp =>
    rw [hkept] at hp
    exact absurd hp (not_beyond_zero _)

/-- If the first run may read all its tokens, it fails where the second fails. -/
theorem Constructs.of_second_error (h : S.Constructs s t) (hkept : S.kept = 0) {e : Diagnostic} {v : State}
    (ht : t.construct = .error e v) : ∃ d u, s.construct = .error d u ∧ S.Err d e ∧ S.Rel u v := by
  cases h with
  | stored _ hq =>
    rw [ht] at hq
    cases hq
  | failed hp hq herr hrel =>
    rw [ht] at hq
    cases hq
    exact ⟨_, _, hp, herr, hrel⟩
  | beyond hp =>
    rw [hkept] at hp
    exact absurd hp (not_beyond_zero _)

end Simulation

end Offside
