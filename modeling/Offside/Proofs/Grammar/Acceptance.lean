import Offside.Proofs.Grammar.Completeness
import Offside.Proofs.Token.Stream

/-!
# Which sources are accepted

A source is read without a diagnostic exactly if it holds no malformed number literal and its tokens are derivable as a program.
That a clean reading has met no malformed literal is proved first, from what the steps of reading do to the stream; then the tokens
to come are known, and the rounds of the script are compared with the derivation.
-/

namespace Offside

open Production

/-- A function is read behind its first word, whatever that is. -/
theorem AgreeAt.function_of_advance {n : Nat} {s : State} (ha : AgreeAt n s Production.advance Production.advance) :
    AgreeAt n s Grammar.function Grammar.function := by
  have hprototype : Agree n Grammar.prototype Grammar.prototype :=
    (Agree.identifier _).bind fun _ => (Agree.expectPunct _ _).bind fun _ =>
      (Agree.commaSeparated (Agree.identifier _)).bind fun _ => Agree.pure _
  have hblock : Agree n Grammar.block Grammar.block :=
    fun _ hs => AgreeAt.blockWith (Agree.primary n) (Nat.le_succ_of_le hs)
  refine ha.bind fun _ => hprototype.bind fun _ => Agree.skipStatementEnds.bind fun _ => Agree.current.bind fun _ => ?_
  split
  · exact Agree.unexpected _
  · exact hblock.bind fun _ => (Agree.note _).bind fun _ => Agree.pure _

/-- A function reads its first word and leaves one token less. -/
theorem AgreeAt.function {n : Nat} {s : State} (hs : s.remaining ≤ n + 1) (hc : s.current ≠ .endOfInput) :
    AgreeAt n s Grammar.function Grammar.function :=
  .function_of_advance (.advance_succ hs hc)

/-- An expression outside functions is made of steps, and leaves no more tokens than there were. -/
theorem Agree.topLevel {n : Nat} : Agree n Grammar.topLevel Grammar.topLevel :=
  (Agree.expressionWith (Agree.primary n)).bind fun _ => Agree.get.bind fun _ => Agree.pure _

/-! ## What is still to come -/

/-- The end of the input stands at the end of the stream only. -/
structure Proper (s : State) : Prop where
  finished : s.current = .endOfInput → s.stream.items = []
  tokens : ∀ i ∈ s.stream.items, i.lexed ≠ .token .endOfInput

/-- Whether a state is proper depends on the tokens to come only. -/
theorem Proper.congr {s t : State} (h : Proper s) (hstream : t.stream = s.stream) (hcurrent : t.current = s.current) :
    Proper t :=
  ⟨by rw [hstream, hcurrent]; exact h.finished, by rw [hstream]; exact h.tokens⟩

/-- A source is read from a proper state on. -/
theorem Proper.start (source : String) (w : Workspace) : Proper (State.start source w) where
  finished := by intro h; cases h
  tokens := TokenStream.ofSource_ne_endOfInput source

/-- Reading a token leaves a proper state. -/
theorem Proper.advance {s t : State} (h : Proper s) (ha : advance s = .ok () t) : Proper t := by
  rcases advance_ok_cases ha with ⟨hi, rfl⟩ | ⟨i, is, token, hi, hl, rfl⟩
  · exact ⟨fun _ => hi, h.tokens⟩
  · constructor
    · rintro rfl
      exact absurd hl (h.tokens i (by simp [hi]))
    · intro j hj
      exact h.tokens j (List.mem_of_mem_tail hj)

/-- Steps read tokens off the front of the stream, and nothing else. -/
theorem Steps.reads {s t : State} (h : Steps s t) (hs : Proper s) :
    Proper t ∧ ∃ read : List Token, s.stream.items.map (·.lexed) = read.map .token ++ t.stream.items.map (·.lexed) := by
  induction h with
  | refl => exact ⟨hs, [], rfl⟩
  | read ha _ ih =>
    obtain ⟨ht, read, hread⟩ := ih (hs.advance ha)
    rcases advance_ok_cases ha with ⟨hi, rfl⟩ | ⟨i, is, token, hi, hl, rfl⟩
    · exact ⟨ht, read, hread⟩
    · refine ⟨ht, token :: read, ?_⟩
      simp only [State.take, TokenStream.tail_items] at hread
      simp [hi, hl] at hread ⊢
      exact hread
  | note _ _ ih => exact ih (hs.congr rfl rfl)
  | block _ _ ihin ihout =>
    obtain ⟨ht, read, hread⟩ := ihin (hs.congr rfl rfl)
    obtain ⟨hu, read', hread'⟩ := ihout (ht.congr rfl rfl)
    refine ⟨hu, read ++ read', ?_⟩
    rw [List.map_append, List.append_assoc, ← hread']
    exact hread

/-! ## Rounds of a script -/

namespace State

/-- Passing over a token reports nothing where it is read without an error. -/
theorem pass_of_ok {s t : State} (h : advance s = .ok () t) : s.pass = (t, []) := by
  simp [pass, passUpTo, h]

/-- At the end of the input nothing is passed over. -/
theorem pass_end {s : State} (h : s.stream.items = []) :
    s.pass = ({ s with current := .endOfInput, position := s.stream.finish }, []) :=
  pass_of_ok (advance_end h)

/-- Where passing over a token reports nothing, it is read without an error. -/
theorem ok_of_pass {s : State} (h : s.pass.2 = []) : ∃ t, advance s = .ok () t ∧ s.pass = (t, []) := by
  cases ha : advance s with
  | ok _ t => exact ⟨t, rfl, pass_of_ok ha⟩
  | error d t => simp [pass, passUpTo, ha] at h

/-- A script is clean exactly if it is over, or its next round goes through and the rest is clean. -/
theorem scriptUpTo_clean_iff (n : Nat) (s : State) :
    (scriptUpTo (n + 1) s).2 = [] ↔ s.current = .endOfInput ∨
      (s.current = .statementEnd ∧ ∃ t, advance s = .ok () t ∧ (scriptUpTo n t).2 = []) ∨
        (s.current ≠ .endOfInput ∧ s.current ≠ .statementEnd ∧ ∃ t, s.construct = .ok () t ∧ (scriptUpTo n t).2 = []) := by
  rw [scriptUpTo]
  by_cases hend : s.current = .endOfInput
  · simp [hend]
  by_cases hsep : s.current = .statementEnd
  · simp only [hsep, if_true]
    constructor
    · intro h
      obtain ⟨hpassed, hmore⟩ := List.append_eq_nil_iff.mp h
      obtain ⟨t, ha, hp⟩ := ok_of_pass hpassed
      rw [hp] at hmore
      exact Or.inr (Or.inl ⟨trivial, t, ha, hmore⟩)
    · rintro (h | ⟨_, t, ha, hmore⟩ | ⟨_, h, _⟩)
      · cases h
      · rw [pass_of_ok ha]
        simpa using hmore
      · exact absurd rfl h
  · simp only [hend, hsep, if_false]
    cases hc : s.construct with
    | ok _ t => simp [hend, hsep]
    | error d t => simp

/-- A construct that is stored is a function or an expression, by its first word. -/
theorem construct_ok_cases {s t : State} (h : s.construct = .ok () t) :
    (s.current = .keyword .function ∧ ∃ f u, Grammar.function s = .ok f u ∧
        t = { u with workspace := u.workspace.addFunction f }) ∨
      (s.current ≠ .keyword .function ∧ ∃ f u, Grammar.topLevel s = .ok f u ∧
        t = { u with workspace := u.workspace.addGlobal f }) := by
  rw [construct] at h
  split at h
  · rename_i hc
    cases hf : Grammar.function s with
    | ok f u =>
      rw [hf] at h
      cases h
      exact Or.inl ⟨hc, f, u, rfl, rfl⟩
    | error d u =>
      rw [hf] at h
      cases h
  · rename_i hc
    cases hf : Grammar.topLevel s with
    | ok f u =>
      rw [hf] at h
      cases h
      exact Or.inr ⟨hc, f, u, rfl, rfl⟩
    | error d u =>
      rw [hf] at h
      cases h

/-- A construct that is stored is read in steps, and at least one token is used up. -/
theorem construct_steps {s t : State} (h : s.construct = .ok () t) (hs : s.current ≠ .endOfInput) :
    ∃ u, Steps s u ∧ t.stream = u.stream ∧ t.current = u.current ∧ t.remaining < s.remaining := by
  rcases construct_ok_cases h with ⟨_, f, u, hf, rfl⟩ | ⟨_, f, u, hf, rfl⟩
  · have hpos := s.remaining_pos hs
    have hagree : AgreeAt (s.remaining - 1) s Grammar.function Grammar.function := .function (by omega) hs
    have hfollows := hagree.follows
    rw [hf] at hfollows
    have hbound := hagree.bound f u hf
    refine ⟨u, hfollows, rfl, rfl, ?_⟩
    show u.remaining < s.remaining
    omega
  · have hfollows := (Agree.topLevel s (Nat.le_refl _)).follows
    rw [hf] at hfollows
    obtain ⟨body, s₁, h₁, hrest⟩ := bind_eq_ok.mp hf
    cases hrest
    have hlt : u.remaining < s.remaining := Grammar.consumes_expressionWith consumes_primary _ _ _ h₁
    exact ⟨u, hfollows, rfl, rfl, hlt⟩

/-- A clean script has met no malformed literal. -/
theorem scriptUpTo_tokens (n : Nat) :
    ∀ {s : State}, s.remaining ≤ n → Proper s → (scriptUpTo n s).2 = [] →
      ∃ ts : List Token, s.stream.items.map (·.lexed) = ts.map .token := by
  induction n with
  | zero =>
    intro s hn hs _
    have hend := current_of_remaining_eq_zero (Nat.le_zero.mp hn)
    exact ⟨[], by simp [hs.finished hend]⟩
  | succ n ih =>
    intro s hn hs h
    rcases (scriptUpTo_clean_iff n s).mp h with hend | ⟨hsep, t, ha, hmore⟩ | ⟨hend, _, t, hc, hmore⟩
    · exact ⟨[], by simp [hs.finished hend]⟩
    · have hlt := advance_remaining_lt ha (by simp [hsep])
      obtain ⟨_, read, hread⟩ := (Steps.read ha (.refl t)).reads hs
      obtain ⟨ts, hts⟩ := ih (by omega) (hs.advance ha) hmore
      exact ⟨read ++ ts, by rw [hread, hts, List.map_append]⟩
    · obtain ⟨u, hsteps, hstream, hcurrent, hlt⟩ := construct_steps hc hend
      obtain ⟨hu, read, hread⟩ := hsteps.reads hs
      obtain ⟨ts, hts⟩ := ih (by omega) (hu.congr hstream hcurrent) hmore
      exact ⟨read ++ ts, by rw [hread, List.map_append, ← hts, hstream]⟩

/-- What a stored construct has used up is a function or an expression. -/
theorem construct_derives {s t : State} {ts : List Token} (hs : Sees s ts) (h : s.construct = .ok () t) :
    ∃ us, Sees t us ∧ (Grammar.Derives .function ts us ∨ Grammar.Derives .expression ts us) := by
  rcases construct_ok_cases h with ⟨hcur, f, u, hf, rfl⟩ | ⟨_, f, u, hf, rfl⟩
  · cases ts with
    | nil => rw [hs.current_nil] at hcur; cases hcur
    | cons token ts =>
      obtain rfl : token = .keyword .function := hs.current_eq.symm.trans hcur
      obtain ⟨us, hu, hd⟩ := Grammar.sound_function hs hf
      exact ⟨us, hu.congr rfl rfl, Or.inl hd⟩
  · obtain ⟨body, s₁, h₁, hrest⟩ := bind_eq_ok.mp hf
    cases hrest
    obtain ⟨us, hu, hd⟩ := Grammar.sound_expression hs h₁
    exact ⟨us, hu.congr rfl rfl, Or.inr hd⟩

/-- What a stored construct has used up is a piece of a program. -/
theorem sound_construct {s t : State} {ts : List Token} (hs : Sees s ts) (h : s.construct = .ok () t) :
    ∃ us, Sees t us ∧ ∀ vs, Grammar.Derives .program us vs → Grammar.Derives .program ts vs := by
  obtain ⟨us, ht, hd⟩ := construct_derives hs h
  exact ⟨us, ht, fun vs hrest => hd.elim (fun hd => .programFunction hd hrest) fun hd => .programExpression hd hrest⟩

/-- A derivable construct is stored, and the rest stays derivable. -/
theorem complete_construct {s : State} {token : Token} {ts : List Token} (hs : Sees s (token :: ts))
    (hsep : token ≠ .statementEnd) (hd : Grammar.Derives .program (token :: ts) []) :
    ∃ t us, s.construct = .ok () t ∧ Sees t us ∧ Grammar.Derives .program us [] := by
  cases hd with
  | programSeparator => exact absurd rfl hsep
  | programFunction hf hrest =>
    obtain ⟨f, t, us, hft, ht, hk⟩ := Grammar.complete_function (K := fun us => Grammar.Derives .program us []) hs hf hrest
    have hcur : s.current = .keyword .function := by
      cases hf
      exact hs.current_eq
    refine ⟨{ t with workspace := t.workspace.addFunction f }, us, ?_, ht.congr rfl rfl, hk⟩
    rw [construct, if_pos hcur, hft]
  | programExpression he hrest =>
    obtain ⟨body, t, us, hbt, ht, hk⟩ := Grammar.complete_expression .program _ (Nat.le_refl _) hs ⟨_, he, hrest⟩
    have hcur : s.current ≠ .keyword .function := by
      rintro heq
      obtain rfl : token = .keyword .function := hs.current_eq.symm.trans heq
      exact he.not_expression rfl
    rw [construct, if_neg hcur, Grammar.topLevel, bind_of_ok hbt]
    exact ⟨_, us, rfl, ht.congr rfl rfl, hk⟩

/-- Where the tokens to come are known, a script is clean exactly if they are a program. -/
theorem scriptUpTo_clean_iff_derives (n : Nat) :
    ∀ {s : State} {ts : List Token}, ts.length ≤ n → Sees s ts →
      ((scriptUpTo n s).2 = [] ↔ Grammar.Derives .program ts []) := by
  induction n with
  | zero =>
    intro s ts hn _
    obtain rfl := List.eq_nil_of_length_eq_zero (Nat.le_zero.mp hn)
    exact ⟨fun _ => .programEnd, fun _ => rfl⟩
  | succ n ih =>
    intro s ts hn hs
    rw [scriptUpTo_clean_iff]
    cases ts with
    | nil => exact ⟨fun _ => .programEnd, fun _ => Or.inl hs.current_nil⟩
    | cons token ts =>
      simp only [List.length_cons, Nat.add_le_add_iff_right] at hn
      constructor
      · rintro (hend | ⟨hsep, t, ha, hmore⟩ | ⟨_, _, t, hc, hmore⟩)
        · exact absurd hend hs.current_ne_end
        · obtain rfl : token = .statementEnd := hs.current_eq.symm.trans hsep
          exact .programSeparator ((ih hn (hs.advance_ok ha)).mp hmore)
        · obtain ⟨us, ht, hd⟩ := sound_construct hs hc
          have hlt := (construct_steps hc hs.current_ne_end).choose_spec.2.2.2
          rw [ht.remaining, hs.remaining, List.length_cons] at hlt
          exact hd [] ((ih (by omega) ht).mp hmore)
      · intro hd
        by_cases hsep : token = .statementEnd
        · subst hsep
          obtain ⟨t, ha, ht⟩ := hs.advance
          exact Or.inr (Or.inl ⟨hs.current_eq, t, ha, (ih hn ht).mpr hd.program_separator⟩)
        · obtain ⟨t, us, hc, ht, hrest⟩ := complete_construct hs hsep hd
          have hlt := (construct_steps hc hs.current_ne_end).choose_spec.2.2.2
          rw [ht.remaining, hs.remaining, List.length_cons] at hlt
          exact Or.inr (Or.inr ⟨hs.current_ne_end, by rwa [hs.current_eq], t, hc, (ih (by omega) ht).mpr hrest⟩)

end State

/-- Before a source is read its tokens are to come, behind one separator. -/
theorem Sees.start {source : String} {ts : List Token} (w : Workspace)
    (h : (TokenStream.ofSource source).items.map (·.lexed) = ts.map .token) :
    Sees (State.start source w) (.statementEnd :: ts) where
  current := rfl
  items := h
  proper := by
    intro hm
    rcases List.mem_cons.mp hm with heq | hm
    · cases heq
    · have hmap : Lexed.token .endOfInput ∈ (TokenStream.ofSource source).items.map (·.lexed) := by
        rw [h]
        exact List.mem_map_of_mem hm
      obtain ⟨i, hi, hl⟩ := List.mem_map.mp hmap
      exact TokenStream.ofSource_ne_endOfInput source i hi hl

/-- A source is read without a diagnostic exactly if no number literal in it is malformed and its tokens are derivable as a
program. -/
theorem Workspace.read_clean_iff_derives (w : Workspace) (source : String) :
    (w.read source).diagnostics = [] ↔
      ∃ tokens : List Token, (TokenStream.ofSource source).items.map (·.lexed) = tokens.map .token ∧
        Grammar.Derives .program tokens [] := by
  have hclean : (w.read source).diagnostics = ((State.start source w).scriptUpTo (State.start source w).remaining).2 := rfl
  rw [hclean]
  constructor
  · intro h
    obtain ⟨ts, hts⟩ := State.scriptUpTo_tokens _ (Nat.le_refl _) (.start source w) h
    have hs : Sees (State.start source w) (.statementEnd :: ts) := .start w hts
    have hd := (State.scriptUpTo_clean_iff_derives _ (Nat.le_of_eq hs.remaining.symm) hs).mp h
    exact ⟨ts, hts, hd.program_separator⟩
  · rintro ⟨ts, hts, hd⟩
    have hs : Sees (State.start source w) (.statementEnd :: ts) := .start w hts
    exact (State.scriptUpTo_clean_iff_derives _ (Nat.le_of_eq hs.remaining.symm) hs).mpr (.programSeparator hd)

end Offside
