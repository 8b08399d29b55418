import Offside.Proofs.Grammar.Rounds

/-!
# Spacing

How many separators stand between two constructs does not matter, nor how they are written. Two runs are `Respaced` if their tokens to
come, the lookahead included, are the same once every run of separators counts as one. Reading a token keeps them so, unless one of them
stands in front of more separators than the other; then only this one is a step behind.

Main statement: sources that hold the same items up to runs of separators are read alike.
-/

namespace Offside

open Production

/-- Leaves one separator of every run of them. -/
def collapse : List Lexed → List Lexed
  | [] => []
  | x :: xs => if x = .token .statementEnd ∧ xs.head? = some (.token .statementEnd) then collapse xs else x :: collapse xs

/-- What is not the first of several separators stays. -/
theorem collapse_cons {x : Lexed} {xs : List Lexed} (h : x = .token .statementEnd → xs.head? ≠ some (.token .statementEnd)) :
    collapse (x :: xs) = x :: collapse xs := by
  rw [collapse, if_neg fun hrun => h hrun.1 hrun.2]

/-- Of two separators in a row the first makes no difference. -/
theorem collapse_separators (xs : List Lexed) :
    collapse (.token .statementEnd :: .token .statementEnd :: xs) = collapse (.token .statementEnd :: xs) := by
  rw [collapse, if_pos ⟨rfl, rfl⟩]

/-- The first of a run of separators is left. -/
theorem head?_collapse (xs : List Lexed) : (collapse xs).head? = xs.head? := by
  induction xs with
  | nil => rfl
  | cons x xs ih =>
    rw [collapse]
    split
    · rename_i hrun
      rw [ih, hrun.1, hrun.2, List.head?_cons]
    · rw [List.head?_cons, List.head?_cons]

/-- What comes in front of two rows that are the same up to runs of separators does not tell them apart. -/
theorem collapse_cons_congr (x : Lexed) {xs ys : List Lexed} (h : collapse xs = collapse ys) : collapse (x :: xs) = collapse (x :: ys) := by
  have hhead : xs.head? = ys.head? := by rw [← head?_collapse xs, h, head?_collapse]
  rw [collapse, collapse, hhead, h]

/-! ## Two runs -/

namespace State

/-- What is still to come, the lookahead included. -/
def toCome (s : State) : List Lexed := .token s.current :: s.stream.items.map (·.lexed)

end State

/-- Two runs have the same to come, up to runs of separators. -/
structure Respaced (s t : State) : Prop where
  toCome : collapse t.toCome = collapse s.toCome
  workspace : t.workspace = s.workspace

namespace Respaced

variable {s t : State}

/-- Runs that are the same up to separators are so in either order. -/
theorem symm (h : Respaced s t) : Respaced t s := ⟨h.toCome.symm, h.workspace.symm⟩

/-- Runs that are the same up to separators look at the same token. -/
theorem current (h : Respaced s t) : t.current = s.current := by
  have hhead := congrArg List.head? h.toCome
  rw [head?_collapse, head?_collapse] at hhead
  exact Lexed.token.inj (Option.some.inj hhead)

theorem note (h : Respaced s t) (event event' : Event) : Respaced (s.note event) (t.note event') := ⟨h.toCome, h.workspace⟩

/-- The same change to both workspaces. -/
theorem update (h : Respaced s t) (f : Workspace → Workspace) :
    Respaced { s with workspace := f s.workspace } { t with workspace := f t.workspace } := ⟨h.toCome, congrArg f h.workspace⟩

/-- Unless one run stands in front of more separators than the other, the items behind the lookahead are the same too. -/
theorem items (h : Respaced s t)
    (hs : s.current = .statementEnd → (s.stream.items.map (·.lexed)).head? ≠ some (.token .statementEnd))
    (ht : t.current = .statementEnd → (t.stream.items.map (·.lexed)).head? ≠ some (.token .statementEnd)) :
    collapse (t.stream.items.map (·.lexed)) = collapse (s.stream.items.map (·.lexed)) := by
  have hcome := h.toCome
  unfold State.toCome at hcome
  rw [collapse_cons fun hc => ht (Lexed.token.inj hc), collapse_cons fun hc => hs (Lexed.token.inj hc)] at hcome
  exact (List.cons.inj hcome).2

/-- Where the items behind the lookahead are the same both runs read the same. -/
theorem advance (h : Respaced s t)
    (hitems : collapse (t.stream.items.map (·.lexed)) = collapse (s.stream.items.map (·.lexed))) :
    Corresponds Respaced (fun d e => e.cause = d.cause) id (Production.advance s) (Production.advance t) := by
  have hhead := congrArg List.head? hitems
  rw [head?_collapse, head?_collapse] at hhead
  cases hi : s.stream.items with
  | nil =>
    rw [hi] at hhead
    have hj : t.stream.items = [] := by simpa using hhead
    rw [advance_end hi, advance_end hj]
    refine .ok () ⟨?_, h.workspace⟩
    unfold State.toCome
    rw [hi, hj]
  | cons i is =>
    cases hj : t.stream.items with
    | nil =>
      rw [hi, hj] at hhead
      cases hhead
    | cons j js =>
      rw [hi, hj] at hhead hitems
      have hlexed : j.lexed = i.lexed := Option.some.inj hhead
      rw [List.map_cons, List.map_cons, hlexed] at hitems
      have hrest : (s.take i).stream.items = is ∧ (t.take j).stream.items = js := by simp [State.take, hi, hj]
      cases hl : i.lexed with
      | token token =>
        rw [advance_token hi hl, advance_token hj (hlexed.trans hl)]
        rw [hl] at hitems
        refine .ok () ⟨?_, h.workspace⟩
        unfold State.toCome
        rw [hrest.1, hrest.2]
        exact hitems
      | malformed literal =>
        rw [advance_malformed hi hl, advance_malformed hj (hlexed.trans hl)]
        rw [hl, collapse_cons (by simp), collapse_cons (by simp)] at hitems
        refine .error rfl ⟨?_, h.workspace⟩
        unfold State.toCome
        rw [hrest.1, hrest.2]
        have hcurrent : (t.take j).current = (s.take i).current := h.current
        rw [hcurrent]
        exact collapse_cons_congr _ (List.cons.inj hitems).2

/-- Runs that are the same up to separators as a third one are so to each other. -/
theorem trans {u : State} (h : Respaced s t) (h' : Respaced t u) : Respaced s u :=
  ⟨h'.toCome.trans h.toCome, h'.workspace.trans h.workspace⟩

end Respaced

/-- A run stands in front of more than one separator. -/
def State.Lags (s : State) : Prop :=
  s.current = .statementEnd ∧ (s.stream.items.map (·.lexed)).head? = some (.token .statementEnd)

/-- A run in front of more than one separator may read one of them by itself. -/
theorem State.Lags.advance {s : State} (h : s.Lags) : ∃ s', Production.advance s = .ok () s' ∧ Respaced s s' := by
  obtain ⟨hcurrent, hhead⟩ := h
  cases hi : s.stream.items with
  | nil =>
    rw [hi] at hhead
    cases hhead
  | cons i is =>
    rw [hi] at hhead
    have hlexed : i.lexed = .token .statementEnd := Option.some.inj hhead
    refine ⟨_, advance_token hi hlexed, ?_, rfl⟩
    have hbefore : s.toCome = .token .statementEnd :: .token .statementEnd :: is.map (·.lexed) := by
      unfold State.toCome
      rw [hcurrent, hi, List.map_cons, hlexed]
    have hafter : State.toCome { s.take i with current := .statementEnd } = .token .statementEnd :: is.map (·.lexed) := by
      simp [State.toCome, State.take, hi]
    rw [hbefore, hafter, collapse_separators]

namespace Respaced

variable {s t : State}

/-- One of the runs stands in front of more than one separator, or they have the same behind the lookahead. -/
theorem lags_or_items (h : Respaced s t) :
    s.Lags ∨ t.Lags ∨ collapse (t.stream.items.map (·.lexed)) = collapse (s.stream.items.map (·.lexed)) := by
  by_cases hs : s.Lags
  · exact Or.inl hs
  by_cases ht : t.Lags
  · exact Or.inr (Or.inl ht)
  exact Or.inr (Or.inr (h.items (fun hc hhead => hs ⟨hc, hhead⟩) fun hc hhead => ht ⟨hc, hhead⟩))

/-- Both runs pass over all separators. -/
theorem skip (h : Respaced s t) :
    Corresponds Respaced (fun d e => e.cause = d.cause) id (skipStatementEnds s) (skipStatementEnds t) := by
  generalize hn : s.remaining + t.remaining = n
  induction n using Nat.strongRecOn generalizing s t with
  | ind n ih =>
    by_cases hc : s.current = .statementEnd
    · have hc' : t.current = .statementEnd := h.current.trans hc
      rcases h.lags_or_items with hlag | hlag | hitems
      · obtain ⟨s', hs', hrel⟩ := hlag.advance
        have hlt := advance_remaining_lt hs' (by simp [hc])
        rw [skipStatementEnds_advance hc hs']
        exact ih _ (by omega) (hrel.symm.trans h) rfl
      · obtain ⟨t', ht', hrel⟩ := hlag.advance
        have hlt := advance_remaining_lt ht' (by simp [hc'])
        rw [skipStatementEnds_advance hc' ht']
        exact ih _ (by omega) (h.trans hrel) rfl
      · have hcorr := h.advance hitems
        rw [skipStatementEnds_eq, current_bind, current_bind, if_pos hc, if_pos hc']
        generalize hp : Production.advance s = first at hcorr
        generalize hq : Production.advance t = second at hcorr
        cases hcorr with
        | ok _ hrel =>
          have hlt := advance_remaining_lt hp (by simp [hc])
          have hlt' := advance_remaining_lt hq (by simp [hc'])
          rw [bind_of_ok hp, bind_of_ok hq]
          exact ih _ (by omega) hrel rfl
        | error herr hrel =>
          rw [bind_of_error hp, bind_of_error hq]
          exact .error herr hrel
    · rw [skipStatementEnds_stop hc, skipStatementEnds_stop (h.current ▸ hc)]
      exact .ok () h

end Respaced

/-- Runs that are the same up to runs of separators stay so in every production. -/
def respaced : Simulation where
  Rel := Respaced
  Err d e := e.cause = d.cause
  rename := id
  Spans := True
  kept := 0
  token h := Or.inl (Or.inl h.current)
  spans _ _ := trivial
  read h _ _ hsep _ := by
    have hitems := h.items (absurd · hsep) fun hc => absurd (h.current.symm.trans hc) hsep
    exact (h.advance hitems).mono fun h => ⟨h, Or.inl h.current⟩
  skip _ h := Or.inr h.skip
  note event event' h := h.note event event'
  enter h := h.update fun w => { w with depth := w.depth + 1 }
  leave h := h.update fun w => { w with depth := w.depth - 1 }
  unexpected {s t} expected h := by
    unfold State.unexpected
    rw [h.current]
  invalid _ _ := rfl
  uninitialized _ _ := rfl
  resolve name h := by
    rw [h.workspace]
    rfl
  depth h := by rw [h.workspace]
  globalName h := by rw [h.workspace]

/-! ## Two scripts -/

/-- Two scripts store the same and report the same, up to places. -/
structure SameOutcome (first second : State × List Diagnostic) : Prop where
  workspace : second.1.workspace = first.1.workspace
  causes : second.2.map (·.cause) = first.2.map (·.cause)

/-- The same report in front of the same outcomes makes the same outcomes. -/
theorem SameOutcome.cons {first second : State × List Diagnostic} (h : SameOutcome first second) {d e : Diagnostic}
    (hcause : e.cause = d.cause) : SameOutcome (first.1, d :: first.2) (second.1, e :: second.2) := by
  refine ⟨h.workspace, ?_⟩
  rw [List.map_cons, List.map_cons, hcause, h.causes]

namespace Respaced

variable {s t : State}

/-- Both runs pass over the lookahead and go on alike. One that stands in front of more separators goes on by itself first. -/
theorem passed (h : Respaced s t) (hs : Proper s) (ht : Proper t) {n : Nat} (hn : s.remaining + t.remaining ≤ n)
    (ih : ∀ {s' t'}, s'.remaining + t'.remaining < n → Respaced s' t' → Proper s' → Proper t' → SameOutcome s'.script t'.script) :
    SameOutcome s.passed t.passed := by
  generalize hk : s.stream.size = k
  induction k using Nat.strongRecOn generalizing s t with
  | ind k ihk =>
    by_cases hend : s.current = .endOfInput
    · rw [State.passed_end (hs.finished hend), State.passed_end (ht.finished (h.current.trans hend))]
      exact ⟨h.workspace, rfl⟩
    have hend' : t.current ≠ .endOfInput := h.current ▸ hend
    rcases h.lags_or_items with hlag | hlag | hitems
    · obtain ⟨s', hs', hrel⟩ := hlag.advance
      have hlt := advance_remaining_lt hs' hend
      have hscript := ih (by omega) (hrel.symm.trans h) (hs.advance hs') ht
      rwa [State.script_separator ht (h.current.trans hlag.1), ← State.passed_of_ok hs'] at hscript
    · obtain ⟨t', ht', hrel⟩ := hlag.advance
      have hlt := advance_remaining_lt ht' hend'
      have hscript := ih (by omega) (h.trans hrel) hs (ht.advance ht')
      rwa [State.script_separator hs (h.current.symm.trans hlag.1), ← State.passed_of_ok ht'] at hscript
    · have hcorr := h.advance hitems
      generalize hp : Production.advance s = first at hcorr
      generalize hq : Production.advance t = second at hcorr
      cases hcorr with
      | ok _ hrel =>
        have hlt := advance_remaining_lt hp hend
        have hlt' := advance_remaining_lt hq hend'
        rw [State.passed_of_ok hp, State.passed_of_ok hq]
        exact ih (by omega) hrel (hs.advance hp) (ht.advance hq)
      | @error s' t' d e herr hrel =>
        -- a malformed literal is passed over by both, and the lookahead is still to be passed over
        obtain ⟨_, hle, hproper⟩ := (Fails.malformed hp).leaves
        obtain ⟨_, hle', hproper'⟩ := (Fails.malformed hq).leaves
        have hsize : s'.stream.size < k := by
          obtain ⟨i, is, _, hi, _, rfl, _⟩ := advance_error_cases hp
          have hsize := s.stream.size_eq
          rw [hi, List.length_cons] at hsize
          rw [State.take, TokenStream.tail_size]
          omega
        rw [State.passed_of_error hp, State.passed_of_error hq]
        refine SameOutcome.cons (ihk _ hsize (hrel.note (.problem d) (.problem e)) ((hproper hs).congr rfl rfl)
          ((hproper' ht).congr rfl rfl) ?_ rfl) herr
        rw [State.remaining_note, State.remaining_note]
        omega

/-- Runs that are the same up to runs of separators store the same, and report the same up to places. -/
theorem script (h : Respaced s t) (hs : Proper s) (ht : Proper t) : SameOutcome s.script t.script := by
  generalize hn : s.remaining + t.remaining = n
  induction n using Nat.strongRecOn generalizing s t with
  | ind n ih =>
    have hless : ∀ {s' t'}, s'.remaining + t'.remaining < n → Respaced s' t' → Proper s' → Proper t' →
        SameOutcome s'.script t'.script := fun hlt h hs ht => ih _ hlt h hs ht rfl
    by_cases hend : s.current = .endOfInput
    · rw [State.script_end hend, State.script_end (h.current.trans hend)]
      exact ⟨h.workspace, rfl⟩
    have hend' : t.current ≠ .endOfInput := h.current ▸ hend
    by_cases hsep : s.current = .statementEnd
    · rw [State.script_separator hs hsep, State.script_separator ht (h.current.trans hsep)]
      exact h.passed hs ht (Nat.le_of_eq hn) hless
    have hsep' : t.current ≠ .statementEnd := h.current ▸ hsep
    cases Simulation.constructs (S := respaced) h h.current hend with
    | @stored gs fs u v hp hq hrel _ _ =>
      obtain ⟨hu, hlt⟩ := State.construct_proper hp hend hs
      obtain ⟨hv, hlt'⟩ := State.construct_proper hq hend' ht
      rw [State.script_stored hs hend hsep hp, State.script_stored ht hend' hsep' hq]
      refine hless (by omega) ?_ hu hv
      have hnext := Respaced.update hrel fun w => w.extend gs fs
      simpa [respaced] using hnext
    | @failed d e u v hp hq herr hrel =>
      obtain ⟨_, hle, hu⟩ := (State.construct_fails hp hend).leaves
      obtain ⟨_, hle', hv⟩ := (State.construct_fails hq hend').leaves
      rw [State.script_failed hs hend hsep hp, State.script_failed ht hend' hsep' hq]
      refine SameOutcome.cons (Respaced.passed (Respaced.note hrel (.problem d) (.problem e)) ((hu hs).congr rfl rfl)
        ((hv ht).congr rfl rfl) ?_ hless) herr
      rw [State.remaining_note, State.remaining_note]
      omega
    | beyond hp => exact absurd hp (not_beyond_zero _)

end Respaced

/-- Sources that hold the same tokens and malformed literals, once every run of separators counts as one, are read alike: the same
expressions and functions are stored, and the same is reported in the same order, if elsewhere. So it does not matter how tokens are
spaced, where comments stand, or how statements are separated. -/
theorem Workspace.read_respaced (w : Workspace) (a b : String)
    (h : collapse ((TokenStream.ofSource a).items.map (·.lexed)) = collapse ((TokenStream.ofSource b).items.map (·.lexed))) :
    (w.read a).workspace = (w.read b).workspace ∧ (w.read a).diagnostics.map (·.cause) = (w.read b).diagnostics.map (·.cause) := by
  have hstart : Respaced (State.start b w) (State.start a w) := ⟨collapse_cons_congr _ h, rfl⟩
  obtain ⟨hworkspace, hcauses⟩ := hstart.script (.start b w) (.start a w)
  exact ⟨hworkspace, hcauses⟩

/-- Separators of all kinds with blanks and comments between them, behind an error, between the branches of a condition and in the
header of a function. -/
theorem Workspace.read_respaced_comments :
    let w := Workspace.new .hostDefaults {}
    let a := "x=(1;y = 2.0.0 // two points\r\nif(x)\n\ty\n\n// between\n\nelse z\rfunction f(a) // header\n{ return a }"
    let b := "x = ( 1\ny=2.0.0;if (x);y \r;else z ;; ;function f(a)\x0b;\r\n// header\n{return a}"
    collapse ((TokenStream.ofSource a).items.map (·.lexed)) = collapse ((TokenStream.ofSource b).items.map (·.lexed)) ∧
      (w.read a).workspace = (w.read b).workspace ∧
      (w.read a).diagnostics.map (·.cause) = (w.read b).diagnostics.map (·.cause) ∧ (w.read a).diagnostics.length = 2 := by
  intro w a b
  have h : collapse ((TokenStream.ofSource a).items.map (·.lexed)) = collapse ((TokenStream.ofSource b).items.map (·.lexed)) := by
    decide +kernel
  obtain ⟨hworkspace, hcauses⟩ := Workspace.read_respaced w a b h
  exact ⟨h, hworkspace, hcauses, by decide +kernel⟩

end Offside
