import Offside.Proofs.Separation.Sources

/-!
# A condition that waits for another branch

If a source ends in a condition that another branch may follow, its last construct takes up all separators behind it: there is a round
in which it does (`Crosses`). A malformed literal behind the separators then is part of that construct, which is lost with it.

So a line feed separates a source that closes its blocks from every other one exactly if the source does not end in such a condition.
-/

namespace Offside

open Production

variable {ts more : List Token} {u s t : State} {rest : List (Lexed × Place)} {finish : Position}

/-! ## The construct that takes up the separators at the end -/

/-- As long as the run over both sources does not take up the last separator, the run that has nothing behind it does the same. -/
def following (rest : List (Lexed × Place)) (finish : Position) : Simulation where
  Rel t u := ∃ x ts, Inside [] rest finish x ts u t
  Err _ _ := True
  rename := id
  Spans := True
  kept := rest.length + 1
  token := fun ⟨_, _, h⟩ => Or.inl (Or.inl (h.sees.current_eq.trans h.current.symm))
  spans _ _ := trivial
  read := by
    rintro t u ⟨x, ts, h⟩ _ _ hsep _
    have hx : x ≠ .statementEnd := fun heq => hsep (h.current.trans heq)
    cases ts with
    | nil => exact absurd (h.ends.of_cons hx) Grammar.EndsOpen.not_nil
    | cons x' ts =>
      obtain ⟨u', t', hu, ht, h'⟩ := h.advance
      rw [hu, ht]
      exact .ok () ⟨⟨x', ts, h'⟩, Or.inl (h'.sees.current_eq.trans h'.current.symm)⟩
  skip := by
    rintro t u _ ⟨x, ts, h⟩
    induction ts generalizing x u t with
    | nil =>
      -- the last separator is passed over
      left
      obtain rfl : x = .statementEnd := by simpa [Grammar.EndsOpen] using h.ends
      obtain ⟨front, hfront, hfaces⟩ := h.faces
      obtain rfl := List.map_eq_nil_iff.mp hfront
      have hlast : t.remaining ≤ rest.length + 1 := by
        have hlength : t.stream.items.length = rest.length := by simpa [TokenStream.faces] using congrArg List.length hfaces
        simp [State.remaining, h.current, t.stream.size_eq, hlength]
      rw [skipStatementEnds_eq, current_bind, if_pos h.current]
      exact (Beyond.advance (by simp [h.current]) hlast).bind fun _ _ => Agree.skipStatementEnds
    | cons x' ts ih =>
      by_cases hx : x = .statementEnd
      · obtain ⟨u', t', hu, ht, h'⟩ := h.advance
        rw [skipStatementEnds_advance (h.sees.current_eq.trans hx) hu, skipStatementEnds_advance (h.current.trans hx) ht]
        exact ih _ h'
      · right
        rw [skipStatementEnds_stop (h.current ▸ hx), skipStatementEnds_stop (h.sees.current_eq ▸ hx)]
        exact .ok () ⟨x, _, h⟩
  note _ _ := fun ⟨x, ts, h⟩ => ⟨x, ts, h.congr rfl rfl rfl rfl h.workspace⟩
  enter := fun ⟨x, ts, h⟩ => ⟨x, ts, h.congr rfl rfl rfl rfl (by rw [State.enter, State.enter, h.workspace])⟩
  leave := fun ⟨x, ts, h⟩ => ⟨x, ts, h.congr rfl rfl rfl rfl (by rw [State.leave, State.leave, h.workspace])⟩
  unexpected _ _ := trivial
  invalid _ _ := trivial
  uninitialized _ _ := trivial
  resolve name := fun ⟨_, _, h⟩ => by rw [h.workspace]; rfl
  depth := fun ⟨_, _, h⟩ => by rw [h.workspace]
  globalName := fun ⟨_, _, h⟩ => by rw [h.workspace]

/-- What the run over both sources has to come, if the items of the second are tokens. -/
theorem Inside.sees_second {x : Token} {branch : List Token} (h : Inside [] rest finish x ts u t)
    (hrest : rest.map Prod.fst = branch.map .token) (hend : .endOfInput ∉ branch) : Sees t (x :: ts ++ branch) := by
  have hsees := h.sees
  rw [List.append_nil] at hsees
  obtain ⟨front, hfront, hfaces⟩ := h.faces
  refine ⟨h.current, ?_, fun hmem => ?_⟩
  · rw [← TokenStream.map_fst_faces, hfaces, List.map_append, hfront, hrest, List.cons_append, List.tail_cons, List.map_append]
  · exact (List.mem_append.mp hmem).elim hsees.proper hend

/-- A program waits for another branch as long as its constructs do not take up the separators at its end. -/
theorem State.construct_awaits {branch : List Token} (hend : .endOfInput ∉ branch) {token : Token} {front : List Token} {u' : State}
    (hu : Sees u (token :: ts)) (hsep : token ≠ .statementEnd) (hopen : Grammar.EndsOpen (token :: ts))
    (hd : Grammar.Derives .program (token :: ts ++ branch) []) (huc : u.construct = .ok () u') (hu' : Sees u' front) (hne : front ≠ []) :
    Grammar.Derives .program (front ++ branch) [] := by
  -- a run that has the other branch to come does the same up to the last separator
  let v : State := { u with stream := .ofTokens (ts ++ branch) u.position }
  let face : Token → Lexed × Place := fun t => (.token t, u.position.place)
  have hfst : ∀ ts : List Token, (ts.map face).map Prod.fst = ts.map .token := fun ts => List.map_map
  have hinside : Inside [] (branch.map face) u.position token ts u v := by
    refine ⟨by rwa [List.append_nil], hopen, hu.current_eq, ⟨ts.map face, hfst ts, ?_⟩, rfl, rfl⟩
    show ((ts ++ branch).map _).map Item.face = _
    rw [List.map_map, List.map_append]
    rfl
  have hkept : 1 ≤ u'.remaining := by
    rw [hu'.remaining]
    exact List.length_pos_iff.mpr hne
  obtain ⟨v', hv, htrails⟩ := Trails.construct (Or.inl rfl) (fun hinert => by cases hinert) (Or.inl ⟨token, ts, hinside⟩) hinside.sees
    (by simp) huc hkept
  obtain ⟨v'', us, hv', hsees, hprogram⟩ := State.complete_construct (hinside.sees_second (hfst branch) hend) hsep hd
  rw [hv] at hv'
  cases hv'
  obtain ⟨x, ts', rfl, hinside'⟩ := htrails.inside (by rwa [List.append_nil]) hne
  rwa [hsees.unique (hinside'.sees_second (hfst branch) hend)] at hprogram

theorem persists_awaits : Persists [] fun ts => Grammar.Derives .program (ts ++ elseBranch) [] where
  separator hd := hd.program_separator
  construct := by
    intro token ts front u u' hu hsep _ hopen huc hu' hne hd
    rw [List.append_nil] at hu hu' hne
    exact State.construct_awaits (by simp [elseBranch]) hu hsep hopen hd huc hu' hne

/-- Separators do not wait for another branch. -/
theorem not_program_elseBranch (h : ∀ token ∈ ts, token = .statementEnd) : ¬Grammar.Derives .program (ts ++ elseBranch) [] := by
  induction ts with
  | nil =>
    intro hd
    cases hd with
    | programFunction hf => cases hf
    | programExpression he => exact he.not_expression rfl
  | cons token ts ih =>
    obtain rfl := h token List.mem_cons_self
    exact fun hd => ih (fun token ht => h token (List.mem_cons_of_mem _ ht)) hd.program_separator

/-- A construct that takes up all separators reads on behind them, and cannot be stored if a malformed literal stands there. -/
theorem Crosses.fails {token : Token} {u' : State} {literal : String} {place : Place} {behind : List (Lexed × Place)}
    (h : Crosses [] ((.malformed literal, place) :: behind) finish token ts more u u' s t) (ht : Proper t) :
    ∃ d t', t.construct = .error d t' := by
  obtain ⟨x, us, _, hinside⟩ := h.trails.inside h.leads.leads (by simp)
  have hcurrent : u.current = t.current := hinside.sees.current_eq.trans hinside.current.symm
  have hend : t.current ≠ .endOfInput := hcurrent ▸ hinside.sees.current_ne_end
  cases hc : t.construct with
  | error d t' => exact ⟨d, t', rfl⟩
  | ok _ t' =>
    exfalso
    have hlast : t'.remaining < ((Lexed.malformed literal, place) :: behind).length + 1 := by
      refine Nat.lt_of_not_le fun hkept => ?_
      obtain ⟨gs, fs, t₁, u₁, _, ⟨x', us', hinside'⟩, hu⟩ :=
        (Simulation.constructs (S := following _ finish) ⟨x, us, hinside⟩ hcurrent hend).of_ok hc hkept
      rw [h.stored] at hu
      injection hu with _ hu
      have hsees : Sees u' (x' :: us' ++ []) := hinside'.sees.congr (by rw [hu]) (by rw [hu])
      cases hsees.unique h.ended
    -- all items up to the malformed literal have been read, and they are tokens
    obtain ⟨v, hsteps, hstream, hcurrent', _⟩ := State.construct_steps hc hend
    obtain ⟨read, hitems, htokens⟩ := hsteps.items
    obtain ⟨front, _, hfaces⟩ := hinside.faces
    have hlength : v.stream.items.length ≤ behind.length := by
      rw [← hstream]
      by_cases hover : t'.current = .endOfInput
      · rw [(State.construct_proper hc hend ht).1.finished hover]
        exact Nat.zero_le _
      · simp only [State.remaining, if_neg hover, t'.stream.size_eq, List.length_cons] at hlast
        omega
    rw [TokenStream.faces, hitems, List.map_append] at hfaces
    rcases List.append_eq_append_iff.mp hfaces with ⟨cs, _, hcs⟩ | ⟨cs, hread, hcs⟩
    · have hle := congrArg List.length hcs
      simp only [List.length_map, List.length_append, List.length_cons] at hle
      omega
    · cases cs with
      | nil =>
        have hle := congrArg List.length hcs
        simp only [List.length_map, List.length_cons, List.nil_append] at hle
        omega
      | cons c cs =>
        obtain ⟨rfl, _⟩ := List.cons.inj hcs
        have hmem : (Lexed.malformed literal, place) ∈ read.map Item.face := by
          rw [hread]
          simp
        obtain ⟨i, hi, heq⟩ := List.mem_map.mp hmem
        obtain ⟨token', hl⟩ := htokens i hi
        have hmalformed : i.lexed = .malformed literal := congrArg Prod.fst heq
        rw [hl] at hmalformed
        cases hmalformed

/-! ## What is lost -/

/-- A source that is a malformed literal adds nothing, and the literal is reported. -/
theorem read_malformed (w : Workspace) {source literal : String}
    (h : (TokenStream.ofSource source).items.map (·.lexed) = [.malformed literal]) :
    (w.read source).workspace = w ∧ ∃ place, (w.read source).diagnostics = [⟨.malformedNumber literal, place⟩] := by
  obtain ⟨i, is, hi, hl, hnil⟩ := List.map_eq_cons_iff.mp h
  obtain rfl := List.map_eq_nil_iff.mp hnil
  have hrest : ((State.start source w).take i).stream.items = [] := by
    rw [State.take, TokenStream.tail_items]
    exact congrArg List.tail hi
  have hadvance := advance_malformed (s := State.start source w) hi hl
  have hpass := State.pass_end (s := ((State.start source w).take i).report ⟨.malformedNumber literal, i.place⟩) hrest
  obtain ⟨hread, hread'⟩ := w.read_eq_script source
  rw [State.script_separator (.start source w) rfl, State.pass_of_error hadvance, hpass, State.script_end rfl] at hread hread'
  exact ⟨hread, i.place, hread'⟩

/-- Where a construct fails on a malformed literal that is the last item, nothing is left. -/
theorem Fails.items_nil {d : Diagnostic} {literal : String} {last : Lexed × Place} (h : Fails s d t)
    (hd : d.cause = .malformedNumber literal) {front : List (Lexed × Place)} (hfront : front.map Prod.fst = ts.map .token)
    (hfaces : s.stream.faces = front ++ [last]) : t.stream.items = [] := by
  obtain ⟨read, i, hitems, _, hl⟩ := h.items hd
  rw [TokenStream.faces, hitems, List.map_append, List.map_cons] at hfaces
  rcases List.append_eq_append_iff.mp hfaces with ⟨cs, hcs, heq⟩ | ⟨cs, _, heq⟩
  · cases cs with
    | nil => exact List.map_eq_nil_iff.mp (List.cons.inj heq).2
    | cons c cs =>
      -- a malformed literal is none of the tokens in front
      obtain ⟨rfl, _⟩ := List.cons.inj heq
      have hmem : i.lexed ∈ ts.map Lexed.token := by
        rw [← hfront, hcs]
        exact List.mem_map.mpr ⟨i.face, by simp, rfl⟩
      obtain ⟨token, _, htoken⟩ := List.mem_map.mp hmem
      rw [hl] at htoken
      cases htoken
  · have hlength := congrArg List.length heq
    simp only [List.length_cons, List.length_append, List.length_map, List.length_nil] at hlength
    exact List.eq_nil_of_length_eq_zero (by omega)

/-- Over the first source alone the construct that takes up all separators is stored. -/
theorem Crosses.workspace_ne {token : Token} {u' : State} (h : Crosses [] rest finish token ts more u u' s t) (hs : Proper s) :
    s.script.1.workspace ≠ s.workspace := by
  obtain ⟨ts', more', s', hc, hleads⟩ := h.leads.construct (Or.inl rfl) h.stored (Nat.zero_le _)
  have hend : s.current ≠ .endOfInput := h.leads.sees.current_ne_end
  have hsep : s.current ≠ .statementEnd := h.leads.sees.current_eq ▸ h.separator
  have hover : s'.current = .endOfInput := by
    have hnil := h.ended.unique hleads.leads
    obtain rfl : ts' = [] := by
      cases ts' with
      | nil => rfl
      | cons => cases hnil
    exact hleads.sees.current_nil
  rw [State.script_stored hs hend hsep hc, State.script_end hover]
  exact State.construct_workspace_ne hc hend

/-- With a malformed literal behind the separators the construct is lost, if nothing but the literal is reported. -/
theorem Crosses.workspace_eq {token : Token} {u' : State} {literal : String} {place : Place} {e : Diagnostic}
    (h : Crosses [] [(.malformed literal, place)] finish token ts more u u' s t) (ht : Proper t) (he : e.cause = .malformedNumber literal)
    (hreported : t.script.2 = [e]) : t.script.1.workspace = s.workspace := by
  obtain ⟨x, us, hus, hinside⟩ := h.trails.inside h.leads.leads (by simp)
  have hend : t.current ≠ .endOfInput := hinside.current ▸ fun hx => hinside.sees.current_ne_end (hinside.sees.current_eq.trans hx)
  have hsep : t.current ≠ .statementEnd := by
    have hx := h.separator
    rw [hinside.current]
    exact (List.cons.inj hus).1 ▸ hx
  obtain ⟨d, t', hc⟩ := h.fails ht
  have hfails := State.construct_fails hc hend
  rw [State.script_failed ht hend hsep hc] at hreported ⊢
  obtain ⟨rfl, _⟩ := List.cons.inj hreported
  obtain ⟨front, hfront, hfaces⟩ := hinside.faces
  have hnil : (t'.report d).stream.items = [] := hfails.items_nil he hfront hfaces
  rw [State.pass_end hnil, State.script_end rfl]
  calc t'.workspace = t.workspace := hfails.leaves.1
    _ = u.workspace := hinside.workspace
    _ = s.workspace := h.leads.workspace.symm

variable {w : Workspace} {a b : String}

/-- A condition that waits for another branch is lost if a malformed literal stands on the next line. -/
theorem not_readApart_of_awaits (hclean : (w.read a).diagnostics = [])
    (hclosed : Grammar.closesBlocks 0 (TokenStream.ofSource a).tokens = true) (hawaits : AwaitsBranch w a) {literal : String}
    (hmalformed : (TokenStream.ofSource b).items.map (·.lexed) = [.malformed literal]) : ¬ReadApart w a b := by
  rintro ⟨hworkspace, hdiagnostics⟩
  have hts := clean_tokens hclean
  obtain ⟨fence, hfence, hjoin⟩ := TokenStream.ofSource_join a
  obtain ⟨lead, rest, hsplice⟩ := hjoin b
  obtain ⟨more, hmap, hmore, hfenced⟩ := hfence.separators hts
  obtain ⟨place, rfl⟩ : ∃ place, rest = [(.malformed literal, place)] := by
    have hfaces := congrArg (List.map Prod.fst) hsplice.second
    rw [TokenStream.map_fst_faces, hmalformed] at hfaces
    cases lead with
    | nil =>
      obtain ⟨x, xs, rfl, hx, hxs⟩ := List.map_eq_cons_iff.mp hfaces.symm
      obtain rfl := List.map_eq_nil_iff.mp hxs
      exact ⟨x.2, by rw [← hx]⟩
    | cons x lead =>
      rw [List.cons_append, List.map_cons, hsplice.separators x List.mem_cons_self] at hfaces
      cases hfaces
  obtain ⟨u, hlinked⟩ := Linked.start hclean hts hclosed [] hsplice (by simpa using hmap) hmore hfenced (Or.inl rfl)
  have hd := Grammar.Derives.programSeparator ((awaitsBranch_iff w hjoin hts hmap).mp hawaits)
  rcases hlinked.script (Or.inl rfl) (fun hinert => by cases hinert) persists_awaits hd (.start a w) (.start _ w) hclean with
    ⟨_, us, hus, hprogram⟩ | ⟨token, ts, more, u, u', s, t, hcross, _, hs, ht, hscript, hscript'⟩
  · exact not_program_elseBranch hus hprogram
  · obtain ⟨hkept, place, hreported⟩ := read_malformed (w.read a).workspace hmalformed
    rw [hreported, (w.read_eq_script _).2, hscript'] at hdiagnostics
    rw [hkept, (w.read_eq_script _).1, (w.read_eq_script a).1, hscript, hscript', hcross.workspace_eq ht rfl hdiagnostics] at hworkspace
    exact hcross.workspace_ne hs hworkspace.symm

/-! ## What a line feed separates -/

/-- A line feed separates a source that is accepted and closes its blocks from the one behind it, whatever is wrong with that one, unless
the first ends in a condition that waits for another branch. Behind such a condition the next token is looked at: it is left for the
second source if it cannot be read wrongly, and if it is another branch it is taken. -/
theorem Workspace.read_join_closed (w : Workspace) (a : String) (hclean : (w.read a).diagnostics = [])
    (hclosed : Grammar.closesBlocks 0 (TokenStream.ofSource a).tokens = true) :
    (∀ b, (TokenStream.ofSource b).first? ≠ some (.token (.keyword .else_)) →
      (AwaitsBranch w a → ∀ x ∈ (TokenStream.ofSource b).first?, x.disturbs = false) → ReadApart w a b) ∧
    ((∀ b, (TokenStream.ofSource b).first? ≠ some (.token (.keyword .else_)) → ReadApart w a b) ↔ ¬AwaitsBranch w a) := by
  refine ⟨fun b helse hfirst => ?_, fun hall hawaits => ?_, fun hno b _ => readApart_of_not_awaits hclean hclosed hno⟩
  · by_cases hawaits : AwaitsBranch w a
    · exact readApart_of_undisturbed hclean hclosed helse (hfirst hawaits)
    · exact readApart_of_not_awaits hclean hclosed hawaits
  · have hmalformed : (TokenStream.ofSource "1.2.3").items.map (·.lexed) = [.malformed "1.2.3"] := by decide +kernel
    exact not_readApart_of_awaits hclean hclosed hawaits hmalformed (hall "1.2.3" (by decide +kernel))

/-- A condition that has its other branch in a closed block is read apart from what follows, errors in the latter included. -/
theorem Workspace.read_join_closed_branches :
    let w := Workspace.new .empty {}
    let a := "if (a) b; else { c }"
    let b := "- 1; 2.3.4; if (d)"
    (w.read a).diagnostics = [] ∧ Grammar.closesBlocks 0 (TokenStream.ofSource a).tokens = true ∧ ¬AwaitsBranch w a ∧
      ReadApart w a b := by
  intro w a b
  have hclean : (w.read a).diagnostics = [] := by decide +kernel
  have hclosed : Grammar.closesBlocks 0 (TokenStream.ofSource a).tokens = true := by decide +kernel
  have hno : ¬AwaitsBranch w a := by
    show ¬(w.read (a ++ "\n" ++ "else 0")).diagnostics = []
    decide +kernel
  exact ⟨hclean, hclosed, hno, ((Workspace.read_join_closed w a hclean hclosed).2.mpr hno) b (by decide +kernel)⟩

/-- A condition that waits for another branch goes on behind the line feed with an operator, and is lost with a malformed literal. -/
theorem Workspace.read_join_waiting :
    let w := Workspace.new .empty {}
    let a := "if (a) b"
    (w.read a).diagnostics = [] ∧ Grammar.closesBlocks 0 (TokenStream.ofSource a).tokens = true ∧
      ∀ b ∈ ["1.2.3", "- 1"], (TokenStream.ofSource b).first? ≠ some (.token (.keyword .else_)) ∧ ¬ReadApart w a b := by
  intro w a
  refine ⟨by decide +kernel, by decide +kernel, fun b hb => ?_⟩
  -- what is stored has one expression less
  have hlength : (w.read (a ++ "\n" ++ b)).workspace.globals.length + 1 = ((w.read a).workspace.read b).workspace.globals.length := by
    revert b
    decide +kernel
  refine ⟨by revert b; decide +kernel, fun happart => ?_⟩
  rw [happart.1] at hlength
  exact Nat.succ_ne_self _ hlength

end Offside
