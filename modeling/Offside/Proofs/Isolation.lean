import Offside.Proofs.Grammar.Transport

/-!
# Failures stay in front of a line feed

Two sources with a line feed between them are read as one. If the first holds none of the constructs in which separators are passed
over, then nothing of the first reaches into the second, whether the first is correct or not: both are read as they would be one
after the other.

The run over both sources is compared with the run over the first alone. They are in step up to the separator between the sources
(`InStep`); where the shorter run comes to its end the other stands in front of this separator, which no production passes over. From
there on the rest of the long run is the run over the second source, further down.
-/

namespace Offside

open Production

/-! ## The end of the input is found last -/

/-- The diagnostic for the end of the input, where a separator stands instead. -/
def Diagnostic.atSeparator (d : Diagnostic) : Diagnostic :=
  match d.cause with
  | .unexpectedEnd expected => { d with cause := .unexpectedToken Token.statementEnd.description expected }
  | _ => d

/-- The diagnostics of a source that a separator follows: if the last one is for the end of the input, it is for the separator. -/
def closeLast : List Diagnostic → List Diagnostic
  | [] => []
  | [d] => [d.atSeparator]
  | d :: e :: ds => d :: closeLast (e :: ds)

/-- The end of the input is only found at the end of the input. -/
theorem Fails.at_end {s t : State} {d : Diagnostic} (h : Fails s d t) (hd : d.atSeparator ≠ d) : t.current = .endOfInput := by
  induction h with
  | malformed ha =>
    obtain ⟨_, _, _, _, _, _, rfl⟩ := advance_error_cases ha
    exact absurd rfl hd
  | unexpected s expected =>
    by_cases hc : s.current = .endOfInput
    · exact hc
    · exact absurd (by simp [State.unexpected, Diagnostic.atSeparator, hc]) hd
  | invalid => exact absurd rfl hd
  | after _ _ ih => exact ih hd
  | block _ ih => exact ih hd

namespace State

/-- What is passed over are malformed literals. -/
theorem pass_atSeparator (s : State) : ∀ d ∈ s.pass.2, d.atSeparator = d := by
  generalize hn : s.stream.size = n
  induction n using Nat.strongRecOn generalizing s with
  | ind n ih =>
    cases ha : advance s with
    | ok _ t =>
      rw [pass_of_ok ha]
      intro d hd
      cases hd
    | error e t =>
      rw [pass_of_error ha]
      obtain ⟨i, is, literal, hi, _, rfl, rfl⟩ := advance_error_cases ha
      have hsize := s.stream.size_eq
      rw [hi, List.length_cons] at hsize
      intro d hd
      rcases List.mem_cons.mp hd with rfl | hd
      · rfl
      · exact ih s.stream.tail.size (by rw [TokenStream.tail_size]; omega) _ rfl d hd

/-- Behind the diagnostic for the end of the input there are no others. -/
theorem script_atSeparator {s : State} (hs : Proper s) : ∀ d ∈ s.script.2.dropLast, d.atSeparator = d := by
  have hcons : ∀ {d : Diagnostic} {ds : List Diagnostic}, d.atSeparator = d → (∀ e ∈ ds.dropLast, e.atSeparator = e) →
      ∀ e ∈ (d :: ds).dropLast, e.atSeparator = e := by
    intro d ds hd hds e he
    cases ds with
    | nil => cases he
    | cons d' ds =>
      rcases List.mem_cons.mp he with rfl | he
      · exact hd
      · exact hds e he
  have happend : ∀ {xs ys : List Diagnostic}, (∀ d ∈ xs, d.atSeparator = d) → (∀ d ∈ ys.dropLast, d.atSeparator = d) →
      ∀ d ∈ (xs ++ ys).dropLast, d.atSeparator = d := by
    intro xs ys hxs hys
    induction xs with
    | nil => exact hys
    | cons x xs ih => exact hcons (hxs x List.mem_cons_self) (ih fun d hd => hxs d (List.mem_cons_of_mem _ hd))
  induction s, hs using State.inductRounds with
  | ended s hs hend =>
    rw [script_end hend]
    intro d hd
    cases hd
  | separator s hs hsep ih =>
    rw [script_separator hs hsep]
    exact happend s.pass_atSeparator ih
  | stored s t hs hend hsep hc ih =>
    rw [script_stored hs hend hsep hc]
    exact ih
  | failed s d t hs hend hsep hc ih =>
    rw [script_failed hs hend hsep hc, List.cons_append]
    have hfails := construct_fails hc hend
    by_cases hd : d.atSeparator = d
    · exact hcons hd (happend (pass_atSeparator _) ih)
    · -- the end of the input has been found, and the script is over
      have hover : (t.report d).stream.items = [] := (hfails.leaves.2.2 hs).finished (hfails.at_end hd)
      rw [pass_end hover, script_end rfl]
      intro e he
      cases he

end State

/-- If only the last diagnostic is for the end of the input, replacing it and replacing in all of them are the same. -/
theorem closeLast_eq_map {ds : List Diagnostic} (h : ∀ d ∈ ds.dropLast, d.atSeparator = d) :
    closeLast ds = ds.map Diagnostic.atSeparator := by
  induction ds with
  | nil => rfl
  | cons d ds ih =>
    cases ds with
    | nil => rfl
    | cons e ds =>
      rw [closeLast, List.map_cons, h d (by simp), ih fun d' hd' => h d' (by simp [hd'])]

/-! ## Two runs in step -/

/-- Whether an item begins a construct that may go on behind a separator. -/
def Lexed.spansSeparators : Lexed → Bool
  | .token t => t.spansSeparators
  | .malformed _ => false

/-- An item of a source without constructs that may go on behind a separator. -/
def Plain (x : Lexed) : Prop := x.spansSeparators = false ∧ x ≠ .token .endOfInput

section

-- what stands between the sources, and what comes behind it up to the end of both
variable (fence rest : List (Lexed × Place)) (finish : Position)

/-- The longer run `s` and the shorter run `t` are in front of the separator between the sources. -/
structure InStep (s t : State) : Prop where
  current : t.current = s.current
  place : t.place = s.place
  faces : s.stream.faces = t.stream.faces ++ fence ++ rest
  finish : s.stream.finish = finish
  workspace : t.workspace = s.workspace
  plain : ∀ x ∈ .token t.current :: t.stream.items.map (·.lexed), Plain x
  /-- The shorter source ends in a separator, if there is no other between the sources. -/
  fenced : fence = [(.token .statementEnd, t.stream.finish.place)] ∨
    fence = [] ∧ (Lexed.token t.current :: t.stream.items.map (·.lexed)).getLast? = some (.token .statementEnd)

/-- The shorter run `t` is over, and the longer run `s` stands in front of the separator between the sources. -/
structure Parted (s t : State) : Prop where
  current : s.current = .statementEnd
  ended : t.current = .endOfInput
  place : t.place = s.place
  faces : s.stream.faces = rest
  finish : s.stream.finish = finish
  workspace : t.workspace = s.workspace

/-- The longer run has come as far as the shorter. -/
def Beside (s t : State) : Prop := InStep fence rest finish s t ∨ Parted rest finish s t

/-- The longer run leads where it leads from the separator between the sources, after all that the shorter run leads to. -/
def Continues (long short : State × List Diagnostic) : Prop :=
  ∃ u : State, u.current = .statementEnd ∧ u.stream.faces = rest ∧ u.stream.finish = finish ∧
    u.workspace = short.1.workspace ∧ long = (u.script.1, short.2.map Diagnostic.atSeparator ++ u.script.2)

end

variable {fence rest : List (Lexed × Place)} {finish : Position} {s t : State}

namespace InStep

/-- The shorter run is not at its end while the runs are in step. -/
theorem current_ne_end (h : InStep fence rest finish s t) : t.current ≠ .endOfInput :=
  fun hend => (h.plain _ List.mem_cons_self).2 (congrArg Lexed.token hend)

/-- The separator at the end of the shorter source is the last thing in it. -/
theorem current_of_end (h : InStep fence rest finish s t) (hitems : t.stream.items = []) (hfence : fence = []) :
    t.current = .statementEnd := by
  rcases h.fenced with hsep | ⟨_, hlast⟩
  · rw [hfence] at hsep
    cases hsep
  · rw [hitems] at hlast
    simpa using hlast

/-- In front of the last separator both runs read the same; then the shorter comes to its end. -/
theorem advance (h : InStep fence rest finish s t) (hgo : t.stream.items ≠ [] ∨ fence ≠ []) :
    Corresponds (Beside fence rest finish) (fun d e => d = e.atSeparator) id (Production.advance s) (Production.advance t) := by
  have hfaces := h.faces
  cases hi : t.stream.items with
  | nil =>
    -- the separator between the sources is read by the longer run only
    have hsep := h.fenced.resolve_right fun hnone => (hgo.resolve_left (absurd hi)) hnone.1
    rw [TokenStream.faces_of_items_nil hi, hsep] at hfaces
    obtain ⟨j, js, hj, hlexed, hplace, hrest⟩ := State.items_of_faces hfaces
    rw [advance_end hi, advance_token hj hlexed]
    exact .ok () (Or.inr ⟨rfl, rfl, hplace.symm, hrest, h.finish, h.workspace⟩)
  | cons i is =>
    rw [State.faces_take hi] at hfaces
    obtain ⟨j, js, hj, hlexed, hplace, htail⟩ := State.items_of_faces hfaces
    have hplain := h.plain
    have hfenced := h.fenced
    rw [hi, List.map_cons] at hplain hfenced
    rw [List.getLast?_cons_cons] at hfenced
    cases hl : i.lexed with
    | token token =>
      rw [advance_token hi hl, advance_token hj (hlexed.trans hl)]
      rw [hl] at hplain hfenced
      refine .ok () (Or.inl ⟨rfl, hplace.symm, htail, h.finish, h.workspace, fun other hother => hplain other ?_, ?_⟩)
      · refine List.mem_cons_of_mem _ ?_
        simpa [State.take, hi] using hother
      · simpa [State.take, hi] using hfenced
    | malformed literal =>
      rw [advance_malformed hi hl, advance_malformed hj (hlexed.trans hl), hplace]
      rw [hl] at hplain hfenced
      refine .error rfl (Or.inl ⟨h.current, hplace.symm, htail, h.finish, h.workspace, fun other hother => hplain other ?_, ?_⟩)
      · simp only [State.take, TokenStream.tail_items, hi, List.tail_cons, List.mem_cons] at hother
        simp only [List.mem_cons]
        exact hother.imp id Or.inr
      · -- a malformed literal is no separator, so it is not the last item
        rcases hfenced with hsep | ⟨hnone, hlast⟩
        · exact Or.inl hsep
        · refine Or.inr ⟨hnone, ?_⟩
          cases is with
          | nil => simp at hlast
          | cons k ks => simpa [State.take, hi] using hlast

end InStep

namespace Beside

theorem note (h : Beside fence rest finish s t) (event event' : Event) : Beside fence rest finish (s.note event) (t.note event') :=
  h.imp (fun h => ⟨h.current, h.place, h.faces, h.finish, h.workspace, h.plain, h.fenced⟩)
    fun h => ⟨h.current, h.ended, h.place, h.faces, h.finish, h.workspace⟩

/-- Runs beside each other have the same workspace. -/
theorem workspace (h : Beside fence rest finish s t) : t.workspace = s.workspace := h.elim (·.workspace) (·.workspace)

/-- Runs beside each other see the same token, or the shorter one is over where the longer one stands in front of the separator. -/
theorem level (h : Beside fence rest finish s t) : Level s t := h.imp (·.current) fun h => ⟨h.ended, by rw [h.current]; rfl⟩

/-- Runs beside each other have read the last token at the same place. -/
theorem place (h : Beside fence rest finish s t) : t.place = s.place := h.elim (·.place) (·.place)

/-- The same change to both workspaces. -/
theorem update (h : Beside fence rest finish s t) (f : Workspace → Workspace) :
    Beside fence rest finish { s with workspace := f s.workspace } { t with workspace := f t.workspace } :=
  h.imp (fun h => ⟨h.current, h.place, h.faces, h.finish, congrArg f h.workspace, h.plain, h.fenced⟩)
    fun h => ⟨h.current, h.ended, h.place, h.faces, h.finish, congrArg f h.workspace⟩

end Beside

/-- No production reads the separator between the sources. -/
def beside (fence rest : List (Lexed × Place)) (finish : Position) : Simulation where
  Rel := Beside fence rest finish
  Err d e := d = e.atSeparator
  rename := id
  Spans := False
  kept := 0
  token h := Or.inl (Beside.level h)
  spans {s t} h hspans := by
    rcases h with h | h
    · have hplain : t.current.spansSeparators = false := (h.plain _ List.mem_cons_self).1
      rw [h.current, hspans] at hplain
      cases hplain
    · rw [h.current] at hspans
      cases hspans
  read {s t} h htoken _ hsep _ := by
    rcases h with h | h
    · refine (h.advance ?_).mono fun h => ⟨h, h.level⟩
      by_cases hitems : t.stream.items = []
      · exact Or.inr fun hfence => hsep (htoken.symm.trans (h.current_of_end hitems hfence))
      · exact Or.inl hitems
    · rw [h.ended, h.current] at htoken
      cases htoken
  skip hspans _ := hspans.elim
  note event event' h := h.note event event'
  enter h := h.update fun w => { w with depth := w.depth + 1 }
  leave h := h.update fun w => { w with depth := w.depth - 1 }
  unexpected {s t} expected h := by
    rcases h with h | h
    · have hend := h.current_ne_end
      simp [State.unexpected, Diagnostic.atSeparator, ← h.current, h.place, hend]
    · simp [State.unexpected, Diagnostic.atSeparator, h.ended, h.current, h.place]
  invalid detail h := by
    simp [State.invalidDeclaration, Diagnostic.atSeparator, Beside.place h]
  uninitialized name h := by
    simp [State.invalidDeclaration, Diagnostic.atSeparator, Beside.place h]
  resolve name h := by
    rw [Beside.workspace h]
    rfl
  depth h := by rw [Beside.workspace h]
  globalName h := by rw [Beside.workspace h]

/-! ## Two scripts -/

namespace Continues

/-- From the separator between the sources the longer run goes on by itself, if the shorter passes over its lookahead to its end. -/
theorem of_end (hs : Proper s) (hcurrent : s.current = .statementEnd) (hfaces : s.stream.faces = rest)
    (hfinish : s.stream.finish = finish) (hworkspace : t.workspace = s.workspace) (ht : t.stream.items = []) :
    Continues rest finish s.passed t.passed := by
  refine ⟨s, hcurrent, hfaces, hfinish, ?_, ?_⟩
  · rw [State.passed_end ht]
    exact hworkspace.symm
  · rw [State.passed_end ht]
    exact (State.script_separator hs hcurrent).symm

/-- The diagnostics of a round come first. -/
theorem cons {long short : State × List Diagnostic} (h : Continues rest finish long short) {d e : Diagnostic} (hd : d = e.atSeparator) :
    Continues rest finish (long.1, d :: long.2) (short.1, e :: short.2) := by
  obtain ⟨u, hcurrent, hfaces, hfinish, hworkspace, rfl⟩ := h
  refine ⟨u, hcurrent, hfaces, hfinish, hworkspace, ?_⟩
  rw [hd]
  rfl

end Continues

namespace Beside

/-- Both runs pass over the same, and the longer goes on from the separator between the sources if the shorter comes to its end. -/
theorem passed (h : Beside fence rest finish s t) (hs : Proper s) (ht : Proper t)
    (ih : ∀ {s'}, Beside fence rest finish s' t.pass.1 → Proper s' → Continues rest finish s'.script t.pass.1.script) :
    Continues rest finish s.passed t.passed := by
  generalize hn : t.stream.size = n
  induction n using Nat.strongRecOn generalizing s t with
  | ind n ihn =>
    rcases h with h | h
    · by_cases hgo : t.stream.items ≠ [] ∨ fence ≠ []
      · have hcorr := h.advance hgo
        generalize hp : advance s = first at hcorr
        generalize hq : advance t = second at hcorr
        cases hcorr with
        | ok _ hrel =>
          have hcontinues := ih (by rw [State.pass_of_ok hq]; exact hrel) (hs.advance hp)
          rw [State.pass_of_ok hq] at hcontinues
          rw [State.passed, State.passed, State.pass_of_ok hp, State.pass_of_ok hq]
          exact hcontinues
        | @error s' t' d e herr hrel =>
          obtain ⟨i, is, _, hi, _, rfl, _⟩ := advance_error_cases hq
          obtain ⟨j, js, _, hj, _, rfl, _⟩ := advance_error_cases hp
          have hsize := t.stream.size_eq
          rw [hi, List.length_cons] at hsize
          rw [State.pass_of_error hq] at ih
          have hcontinues := ihn t.stream.tail.size (by rw [TokenStream.tail_size]; omega) (Beside.note hrel (.problem d) (.problem e))
            ((take_proper hs hj).congr rfl rfl) ((take_proper ht hi).congr rfl rfl) ih rfl
          have hround := hcontinues.cons herr
          rw [State.passed, State.passed, State.pass_of_error hp, State.pass_of_error hq]
          exact hround
      · -- the separator at the end of the shorter source is the one between the sources
        simp only [not_or, Classical.not_not] at hgo
        obtain ⟨hitems, hfence⟩ := hgo
        have hfaces := h.faces
        rw [TokenStream.faces_of_items_nil hitems, hfence] at hfaces
        exact .of_end hs (h.current.symm.trans (h.current_of_end hitems hfence)) hfaces h.finish h.workspace hitems
    · exact .of_end hs h.current h.faces h.finish h.workspace (ht.finished h.ended)

/-- The longer run leads where it leads from the separator between the sources, after all that the shorter run leads to. -/
theorem script (h : Beside fence rest finish s t) (hs : Proper s) (ht : Proper t) : Continues rest finish s.script t.script := by
  induction t, ht using State.inductRounds generalizing s with
  | ended t ht hend =>
    rcases h with h | h
    · exact absurd hend h.current_ne_end
    · rw [State.script_end hend]
      exact ⟨s, h.current, h.faces, h.finish, h.workspace.symm, rfl⟩
  | separator t ht hsep ih =>
    have hcurrent : s.current = .statementEnd := by
      rcases h with h | h
      · exact h.current.symm.trans hsep
      · rw [h.ended] at hsep
        cases hsep
    rw [State.script_separator hs hcurrent, State.script_separator ht hsep]
    exact h.passed hs ht ih
  | stored t v ht hend hsep hc ih =>
    have htoken : t.current = s.current := by
      rcases h with h | h
      · exact h.current
      · exact absurd h.ended hend
    have hend' : s.current ≠ .endOfInput := htoken ▸ hend
    obtain ⟨gs, fs, u, v', hp, hrel, rfl⟩ :=
      (Simulation.constructs (S := beside fence rest finish) h htoken hend').of_second_ok rfl hc
    have hnext := Beside.update hrel fun w => w.extend gs fs
    have hproper := (State.construct_proper hp hend' hs).1
    rw [State.script_stored ht hend hsep hc, State.script_stored hs hend' (htoken ▸ hsep) hp]
    refine ih ?_ hproper
    simpa [beside] using hnext
  | failed t e v ht hend hsep hc ih =>
    have htoken : t.current = s.current := by
      rcases h with h | h
      · exact h.current
      · exact absurd h.ended hend
    have hend' : s.current ≠ .endOfInput := htoken ▸ hend
    obtain ⟨d, u, hp, herr, hrel⟩ :=
      (Simulation.constructs (S := beside fence rest finish) h htoken hend').of_second_error rfl hc
    have hu : Proper (u.report d) := ((State.construct_fails hp hend').leaves.2.2 hs).congr rfl rfl
    have hv : Proper (v.report e) := ((State.construct_fails hc hend).leaves.2.2 ht).congr rfl rfl
    have hround := (Beside.passed (Beside.note hrel (.problem d) (.problem e)) hu hv ih).cons herr
    rw [State.script_failed ht hend hsep hc, State.script_failed hs hend' (htoken ▸ hsep) hp]
    exact hround

end Beside

/-- Two sources with a line feed between them are read one after the other, if the first holds no construct in which separators are
passed over. The first may be wrong: only where it ends too early it is the line feed that is found instead of its end. The
diagnostics of the second are found further down by as many lines as the first takes. -/
theorem Workspace.read_join_plain (w : Workspace) (a b : String)
    (h : ∀ i ∈ (TokenStream.ofSource a).items, i.lexed.spansSeparators = false) :
    let first := w.read a
    let second := first.workspace.read b
    let joined := w.read (a ++ "\n" ++ b)
    joined.workspace = second.workspace ∧
      joined.diagnostics = closeLast first.diagnostics ++
        second.diagnostics.map (Diagnostic.down (lineAt (a ++ "\n" ++ b) (a.length + 1) - 1)) := by
  intro first second joined
  obtain ⟨fence, hfence, hjoin⟩ := TokenStream.ofSource_join a
  obtain ⟨lead, rest, hsplice⟩ := hjoin b
  have hinstep : InStep fence (rest.map (faceDown (lineAt (a ++ "\n" ++ b) (a.length + 1) - 1)))
      (TokenStream.ofSource (a ++ "\n" ++ b)).finish (State.start (a ++ "\n" ++ b) w) (State.start a w) := by
    refine ⟨rfl, (CutOff.start a b).place.symm, hsplice.faces, rfl, rfl, fun x hx => ?_, ?_⟩
    · rcases List.mem_cons.mp hx with rfl | hx
      · exact ⟨rfl, fun hend => Lexed.noConfusion hend fun hend => Token.noConfusion hend⟩
      · obtain ⟨i, hi, rfl⟩ := List.mem_map.mp hx
        exact ⟨h i hi, TokenStream.ofSource_ne_endOfInput a i hi⟩
    · cases hfence with
      | separator => exact Or.inl rfl
      | none front place hlast =>
        have hlexed : (TokenStream.ofSource a).items.map (·.lexed) = front.map Prod.fst ++ [.token .statementEnd] := by
          rw [← TokenStream.map_fst_faces, hlast, List.map_append]
          rfl
        refine Or.inr ⟨rfl, ?_⟩
        show (Lexed.token .statementEnd :: (TokenStream.ofSource a).items.map (·.lexed)).getLast? = _
        rw [hlexed, ← List.cons_append, List.getLast?_append]
        rfl
  obtain ⟨u, hcurrent, hfaces', hfinish', hworkspace, hscript⟩ := Beside.script (Or.inl hinstep) (.start _ w) (.start a w)
  obtain ⟨hread, hreport⟩ := State.script_of_faces hcurrent hsplice.separators hsplice.second hfaces' (hfinish' ▸ hsplice.finish)
  rw [hworkspace] at hread hreport
  have hrun : joined.workspace = u.script.1.workspace ∧ joined.diagnostics = _ ++ u.script.2 :=
    ⟨congrArg (fun r => r.1.workspace) hscript, congrArg Prod.snd hscript⟩
  have hclose : closeLast first.diagnostics = first.diagnostics.map Diagnostic.atSeparator :=
    closeLast_eq_map (State.script_atSeparator (.start a w))
  refine ⟨hrun.1.trans hread, ?_⟩
  rw [hrun.2, hreport, hclose]
  rfl

/-- A call that is not closed, a malformed literal and a value that is missing at the end all stay in front of the line feed. -/
theorem Workspace.read_join_plain_unclosed :
    let w := Workspace.new .empty {}
    let a := "f(1; x = 2.3.4; y ="
    let b := "z = ;u = 1"
    (∀ i ∈ (TokenStream.ofSource a).items, i.lexed.spansSeparators = false) ∧
      (w.read (a ++ "\n" ++ b)).workspace = ((w.read a).workspace.read b).workspace ∧
      (w.read (a ++ "\n" ++ b)).diagnostics =
        closeLast (w.read a).diagnostics ++ ((w.read a).workspace.read b).diagnostics.map (Diagnostic.down 1) := by
  intro w a b
  have hplain : ∀ i ∈ (TokenStream.ofSource a).items, i.lexed.spansSeparators = false := by decide +kernel
  have hline : lineAt (a ++ "\n" ++ b) (a.length + 1) - 1 = 1 := by decide +kernel
  have hjoin := Workspace.read_join_plain w a b hplain
  rw [hline] at hjoin
  exact ⟨hplain, hjoin⟩

end Offside
