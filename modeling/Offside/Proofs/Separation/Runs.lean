import Mathlib.Data.List.TakeWhile
import Offside.Proofs.Grammar.Extension
import Offside.Proofs.Grammar.Transport

/-!
# Runs over two sources

Two sources with a line feed between them are read as one. The run over both is compared with the run over the first alone by way of a
third one: it has the tokens of the first source, the separators behind them, and behind these nothing or a token that is never read.
From what the grammar derives it follows that this run stores every construct of the first source and does not read on behind the
separators (`Linked.construct`). So the run over both sources stores them too, and comes to the items of the second source
(`Linked.script`), which it then reads (`Arrives.reads`).
-/

namespace Offside

open Production

/-! ## The run over the first source -/

/-- The run `s` has the tokens `ts` to come. The run `u` has them too, and then some separators and `ys`. -/
structure Leads (ys ts more : List Token) (u s : State) : Prop where
  sees : Sees s ts
  leads : Sees u (ts ++ more ++ ys)
  separators : ∀ t ∈ more, t = .statementEnd
  /-- There is a separator in front of `ys`. -/
  fenced : ts ≠ [] → more ≠ [] ∨ Grammar.EndsOpen ts
  workspace : s.workspace = u.workspace

variable {ys ts more : List Token} {u s : State}

namespace Leads

/-- Whether one run leads another depends on the tokens to come and on the workspaces only. -/
theorem congr (h : Leads ys ts more u s) {u' s' : State} (hu : u'.stream = u.stream) (hu' : u'.current = u.current)
    (hs : s'.stream = s.stream) (hs' : s'.current = s.current) (hw : s'.workspace = u'.workspace) : Leads ys ts more u' s' :=
  ⟨h.sees.congr hs hs', h.leads.congr hu hu', h.separators, h.fenced, hw⟩

/-- Both runs see the same token, or the shorter one is over where the other stands in front of a separator or of `ys`. -/
theorem token (hys : ys = [] ∨ ys = [.inert]) (h : Leads ys ts more u s) : Level u s ∨ Aside ys.length u s := by
  cases ts with
  | cons t ts => exact Or.inl (Or.inl (h.sees.current_eq.trans h.leads.current_eq.symm))
  | nil =>
    have hover := h.sees.current_nil
    have hu := h.leads
    cases more with
    | cons t more =>
      obtain rfl := h.separators t List.mem_cons_self
      exact Or.inl (Or.inr ⟨hover, by rw [hu.current_eq]; rfl⟩)
    | nil =>
      rcases hys with rfl | rfl
      · exact Or.inl (Or.inl (hover.trans hu.current_nil.symm))
      · exact Or.inr ⟨hu.current_eq, Nat.le_of_eq hu.remaining, hover ▸ ⟨by simp, by simp, rfl⟩⟩

/-- A separator stands in front of `ys`. -/
theorem ends (h : Leads ys ts more u s) (hne : ts ≠ []) : Grammar.EndsOpen (ts ++ more) := by
  rcases List.eq_nil_or_concat more with rfl | ⟨front, last, rfl⟩
  · rw [List.append_nil]
    exact (h.fenced hne).resolve_left fun hnil => hnil rfl
  · obtain rfl := h.separators last (by simp)
    simp [Grammar.EndsOpen, ← List.append_assoc]

/-- Both runs read the token that they see. -/
theorem advance {t : Token} (h : Leads ys (t :: ts) more u s) :
    ∃ u' s', Production.advance u = .ok () u' ∧ Production.advance s = .ok () s' ∧ Leads ys ts more u' s' := by
  obtain ⟨u', hu, hu'⟩ := h.leads.advance
  obtain ⟨s', hs, hs'⟩ := h.sees.advance
  refine ⟨u', s', hu, hs, hs', hu', h.separators, fun hne => ?_, ?_⟩
  · exact (h.fenced (by simp)).imp id fun hopen => hopen.of_isSuffix (List.suffix_cons _ _) hne
  · rw [(Steps.read hs (.refl _)).workspace_eq, (Steps.read hu (.refl _)).workspace_eq, h.workspace]

/-- Passing over separators keeps one run leading the other. -/
theorem skip (hys : ys = [] ∨ ys = [.inert]) (h : Leads ys ts more u s) :
    Corresponds (fun u s => ∃ ts more, Leads ys ts more u s) (fun _ _ => True) id (skipStatementEnds u) (skipStatementEnds s) := by
  obtain ⟨u', hu, hu'⟩ := h.leads.skipStatementEnds
  obtain ⟨s', hs, hs'⟩ := h.sees.skipStatementEnds
  have hw : s'.workspace = u'.workspace := by
    have hstep : ∀ {v v' : State}, skipStatementEnds v = .ok () v' → v'.workspace = v.workspace := by
      intro v v' hv
      have hfollows := (Agree.skipStatementEnds v (Nat.le_refl _)).follows
      rw [hv] at hfollows
      exact Steps.workspace_eq hfollows
    rw [hstep hs, hstep hu, h.workspace]
  rw [hu, hs]
  refine .ok () ?_
  by_cases hnil : ts.dropWhile (· = .statementEnd) = []
  · -- both runs have come to the last separator in front of `ys`
    have hall : ∀ t ∈ ts ++ more, decide (t = .statementEnd) = true := by
      intro t ht
      rcases List.mem_append.mp ht with ht | ht
      · exact List.dropWhile_eq_nil_iff.mp hnil t ht
      · simpa using h.separators t ht
    have hstop : ys.dropWhile (· = .statementEnd) = ys := by rcases hys with rfl | rfl <;> rfl
    rw [List.dropWhile_append_of_pos hall, hstop] at hu'
    exact ⟨[], [], by rwa [hnil] at hs', hu', by simp, by simp, hw⟩
  · refine ⟨_, more, hs', ?_, h.separators, fun hne => ?_, hw⟩
    · rw [List.append_assoc, List.dropWhile_append, if_neg (by simpa using hnil)] at hu'
      rwa [List.append_assoc]
    · have hts : ts ≠ [] := by
        rintro rfl
        exact hne rfl
      exact (h.fenced hts).imp id fun hopen => hopen.of_isSuffix (List.dropWhile_suffix _) hne

end Leads

/-- The run over the first source alone does what the run does that has separators behind it. -/
def leading (ys : List Token) (hys : ys = [] ∨ ys = [.inert]) : Simulation where
  Rel u s := ∃ ts more, Leads ys ts more u s
  Err _ _ := True
  rename := id
  Spans := True
  kept := ys.length
  token := fun ⟨_, _, h⟩ => h.token hys
  spans _ _ := trivial
  read := by
    rintro u s ⟨ts, more, h⟩ htoken hend hsep _
    cases ts with
    | nil => exact absurd (htoken.symm.trans h.sees.current_nil) hend
    | cons t ts =>
      obtain ⟨u', s', hu, hs, h'⟩ := h.advance
      rw [hu, hs]
      refine .ok () ⟨⟨ts, more, h'⟩, ?_⟩
      cases ts with
      | cons t' ts => exact Or.inl (h'.sees.current_eq.trans h'.leads.current_eq.symm)
      | nil =>
        have hne : t ≠ .statementEnd := fun heq => hsep (h.leads.current_eq.trans heq)
        have hmore : more ≠ [] := (h.fenced (by simp)).resolve_right fun hopen => Grammar.EndsOpen.not_nil (hopen.of_cons hne)
        cases more with
        | nil => exact absurd rfl hmore
        | cons t' more =>
          obtain rfl := h.separators t' List.mem_cons_self
          exact Or.inr ⟨h'.sees.current_nil, by rw [h'.leads.current_eq]; rfl⟩
  skip _ := fun ⟨_, _, h⟩ => Or.inr (h.skip hys)
  note _ _ := fun ⟨ts, more, h⟩ => ⟨ts, more, h.congr rfl rfl rfl rfl h.workspace⟩
  enter := fun ⟨ts, more, h⟩ => ⟨ts, more, h.congr rfl rfl rfl rfl (by rw [State.enter, State.enter, h.workspace])⟩
  leave := fun ⟨ts, more, h⟩ => ⟨ts, more, h.congr rfl rfl rfl rfl (by rw [State.leave, State.leave, h.workspace])⟩
  unexpected _ _ := trivial
  invalid _ _ := trivial
  uninitialized _ _ := trivial
  resolve name := fun ⟨_, _, h⟩ => by rw [h.workspace]; rfl
  depth := fun ⟨_, _, h⟩ => by rw [h.workspace]
  globalName := fun ⟨_, _, h⟩ => by rw [h.workspace]

/-! ## The run over both sources -/

/-- A run has read the first of the given items, or has come to its end if there is none. -/
def Entered (t : State) : List (Lexed × Place) → Prop
  | [] => t.current = .endOfInput ∧ t.place = t.stream.finish.place ∧ t.stream.faces = []
  | (x, place) :: rest => x = .token t.current ∧ t.place = place ∧ t.stream.faces = rest

/-- If there is a first item, it is a token that does not go on with what is in front of separators. -/
def Quiet (rest : List (Lexed × Place)) : Prop := ∀ x ∈ rest.head?, ∃ token : Token, x.1 = .token token ∧ token.Halts

section

-- the items behind the separators that the runs have in common, up to the end
variable (ys : List Token) (rest : List (Lexed × Place)) (finish : Position)

/-- The tokens `x :: ts` are to come in both runs. Behind them `ys` are to come in the run `u` and the items `rest` in the run `t`. -/
structure Inside (x : Token) (ts : List Token) (u t : State) : Prop where
  sees : Sees u (x :: ts ++ ys)
  ends : Grammar.EndsOpen (x :: ts)
  current : t.current = x
  faces : ∃ front, front.map Prod.fst = ts.map .token ∧ t.stream.faces = front ++ rest
  finish : t.stream.finish = finish
  workspace : t.workspace = u.workspace

/-- The run `u` is in front of a token that is never read, and the run `t` has gone on with the items `rest`. -/
structure GoneOn (u t : State) : Prop where
  inert : ys = [.inert]
  sees : Sees u ys
  entered : Entered t rest
  halts : t.current.Halts
  finish : t.stream.finish = finish
  workspace : t.workspace = u.workspace

/-- The run `t` goes along with the run `u`. -/
def Trails (u t : State) : Prop := (∃ x ts, Inside ys rest finish x ts u t) ∨ GoneOn ys rest finish u t

end

variable {rest : List (Lexed × Place)} {finish : Position} {t : State}

/-- Whether items have been entered depends on the lookahead, its place and the items behind. -/
theorem Entered.congr (h : Entered s rest) (hstream : t.stream = s.stream) (hcurrent : t.current = s.current)
    (hposition : t.position = s.position) : Entered t rest := by
  have hplace : t.place = s.place := congrArg Position.place hposition
  cases rest with
  | nil => exact ⟨hcurrent.trans h.1, by rw [hplace, hstream]; exact h.2.1, hstream ▸ h.2.2⟩
  | cons x rest => exact ⟨hcurrent ▸ h.1, hplace.trans h.2.1, hstream ▸ h.2.2⟩

/-- The first of the items that are to come is read, if it is a token. -/
theorem Entered.of_advance (hquiet : Quiet rest) (hfaces : t.stream.faces = rest) :
    ∃ t', advance t = .ok () t' ∧ Entered t' rest ∧ t'.current.Halts ∧ t'.stream.finish = t.stream.finish := by
  cases hi : t.stream.items with
  | nil =>
    obtain rfl : [] = rest := by rw [← hfaces, TokenStream.faces_of_items_nil hi]
    exact ⟨_, advance_end hi, ⟨rfl, rfl, hfaces⟩, ⟨by simp, by simp, rfl⟩, rfl⟩
  | cons i is =>
    rw [State.faces_take hi] at hfaces
    subst hfaces
    obtain ⟨token, hl, hhalts⟩ := hquiet i.face rfl
    have hlexed : i.lexed = .token token := hl
    exact ⟨_, advance_token hi hlexed, ⟨hl, rfl, rfl⟩, hhalts, rfl⟩

namespace Inside

variable {x : Token}

/-- Whether runs are inside the first source depends on the tokens to come and on the workspaces only. -/
theorem congr (h : Inside ys rest finish x ts u t) {u' t' : State} (hu : u'.stream = u.stream) (hu' : u'.current = u.current)
    (ht : t'.stream = t.stream) (ht' : t'.current = t.current) (hw : t'.workspace = u'.workspace) : Inside ys rest finish x ts u' t' :=
  ⟨h.sees.congr hu hu', h.ends, ht'.trans h.current, ht ▸ h.faces, ht ▸ h.finish, hw⟩

/-- Both runs read the next token that they have in common. -/
theorem advance {x' : Token} (h : Inside ys rest finish x (x' :: ts) u t) :
    ∃ u' t', Production.advance u = .ok () u' ∧ Production.advance t = .ok () t' ∧ Inside ys rest finish x' ts u' t' := by
  obtain ⟨u', hu, hu'⟩ := h.sees.advance
  obtain ⟨front, hfront, hfaces⟩ := h.faces
  obtain ⟨f, front, rfl, hf, hfront⟩ := List.map_eq_cons_iff.mp hfront
  obtain ⟨i, is, hi, hlexed, _, hrest⟩ := State.items_of_faces hfaces
  have hadvance := advance_token hi (hlexed.trans hf)
  refine ⟨u', _, hu, hadvance, hu', h.ends.of_isSuffix (List.suffix_cons _ _) (by simp), rfl, ⟨front, hfront, hrest⟩, h.finish, ?_⟩
  · rw [(Steps.read hadvance (.refl _)).workspace_eq, (Steps.read hu (.refl _)).workspace_eq, h.workspace]

/-- Behind the last separator that the runs have in common the second goes on by itself. -/
theorem advance_last (hys : ys = [.inert]) (hquiet : Quiet rest) (h : Inside ys rest finish x [] u t) :
    ∃ u' t', Production.advance u = .ok () u' ∧ Production.advance t = .ok () t' ∧ GoneOn ys rest finish u' t' := by
  obtain ⟨u', hu, hu'⟩ := h.sees.advance
  obtain ⟨front, hfront, hfaces⟩ := h.faces
  obtain rfl := List.map_eq_nil_iff.mp hfront
  obtain ⟨t', ht, hentered, hhalts, hfinish⟩ := Entered.of_advance hquiet hfaces
  refine ⟨u', t', hu, ht, hys, hu', hentered, hhalts, hfinish.trans h.finish, ?_⟩
  rw [(Steps.read ht (.refl _)).workspace_eq, (Steps.read hu (.refl _)).workspace_eq, h.workspace]

end Inside

namespace Trails

/-- Whether one run trails another depends on the lookahead, its place, the tokens to come and the workspaces only. -/
theorem congr (h : Trails ys rest finish u t) {u' t' : State} (hu : u'.stream = u.stream) (hu' : u'.current = u.current)
    (ht : t'.stream = t.stream) (ht' : t'.current = t.current) (hp : t'.position = t.position) (hw : t'.workspace = u'.workspace) :
    Trails ys rest finish u' t' := by
  rcases h with ⟨x, ts, h⟩ | h
  · exact Or.inl ⟨x, ts, h.congr hu hu' ht ht' hw⟩
  · exact Or.inr ⟨h.inert, h.sees.congr hu hu', h.entered.congr ht ht' hp, ht' ▸ h.halts, ht ▸ h.finish, hw⟩

/-- A run that trails another has the same workspace. -/
theorem workspace (h : Trails ys rest finish u t) : t.workspace = u.workspace := by
  rcases h with ⟨_, _, h⟩ | h
  · exact h.workspace
  · exact h.workspace

/-- Passing over separators keeps one run trailing the other, unless the other goes beyond the last token that it may read. -/
theorem skip (hys : ys = [] ∨ ys = [.inert]) (hquiet : ys = [.inert] → Quiet rest) (h : Trails ys rest finish u t) :
    Beyond 1 (skipStatementEnds u) ∨
      Corresponds (Trails ys rest finish) (fun _ _ => True) id (skipStatementEnds u) (skipStatementEnds t) := by
  rcases h with ⟨x, ts, h⟩ | h
  · induction ts generalizing x u t with
    | nil =>
      obtain rfl : x = .statementEnd := by simpa [Grammar.EndsOpen] using h.ends
      rcases hys with hnil | hinert
      · -- the last separator is passed over
        left
        obtain ⟨u', hu, hu'⟩ := h.sees.skipStatementEnds
        rw [hu]
        show u'.remaining < 1
        rw [hu'.remaining, hnil]
        decide
      · right
        obtain ⟨u', t', hu, ht, h'⟩ := h.advance_last hinert (hquiet hinert)
        have hcurrent : u'.current ≠ .statementEnd := by
          have hsees := h'.sees
          rw [hinert] at hsees
          rw [hsees.current_eq]
          exact fun heq => Token.noConfusion heq
        rw [skipStatementEnds_advance h.sees.current_eq hu, skipStatementEnds_advance h.current ht, skipStatementEnds_stop hcurrent,
          skipStatementEnds_stop h'.halts.separator]
        exact .ok () (Or.inr h')
    | cons x' ts ih =>
      by_cases hx : x = .statementEnd
      · obtain ⟨u', t', hu, ht, h'⟩ := h.advance
        rw [skipStatementEnds_advance (h.sees.current_eq.trans hx) hu, skipStatementEnds_advance (h.current.trans hx) ht]
        exact ih _ h'
      · right
        rw [skipStatementEnds_stop (h.sees.current_eq ▸ hx), skipStatementEnds_stop (h.current ▸ hx)]
        exact .ok () (Or.inl ⟨x, _, h⟩)
  · right
    have hcurrent : u.current ≠ .statementEnd := by
      have hsees := h.sees
      rw [h.inert] at hsees
      rw [hsees.current_eq]
      exact fun heq => Token.noConfusion heq
    rw [skipStatementEnds_stop hcurrent, skipStatementEnds_stop h.halts.separator]
    exact .ok () (Or.inr h)

end Trails

/-- The run over both sources does what the run does that has separators behind the first source. -/
def trailing (ys : List Token) (rest : List (Lexed × Place)) (finish : Position) (hys : ys = [] ∨ ys = [.inert])
    (hquiet : ys = [.inert] → Quiet rest) : Simulation where
  Rel := Trails ys rest finish
  Err _ _ := True
  rename := id
  Spans := True
  kept := 1
  token := by
    rintro u t (⟨x, ts, h⟩ | h)
    · exact Or.inl (Or.inl (h.current.trans h.sees.current_eq.symm))
    · have hsees := h.sees
      rw [h.inert] at hsees
      exact Or.inr ⟨hsees.current_eq, Nat.le_of_eq hsees.remaining, h.halts⟩
  spans _ _ := trivial
  read := by
    rintro u t (⟨x, ts, h⟩ | h) htoken hend hsep hlast
    · have hx : x ≠ .statementEnd := fun heq => hsep (h.sees.current_eq.trans heq)
      cases ts with
      | nil => exact absurd (h.ends.of_cons hx) Grammar.EndsOpen.not_nil
      | cons x' ts =>
        obtain ⟨u', t', hu, ht, h'⟩ := h.advance
        rw [hu, ht]
        exact .ok () ⟨Or.inl ⟨x', ts, h'⟩, Or.inl (h'.current.trans h'.sees.current_eq.symm)⟩
    · rw [h.sees.remaining, h.inert] at hlast
      exact absurd hlast (by decide)
  skip _ h := h.skip hys hquiet
  note _ _ h := by
    have hw := Trails.workspace h
    exact Trails.congr h rfl rfl rfl rfl rfl hw
  enter h := Trails.congr h rfl rfl rfl rfl rfl (by rw [State.enter, State.enter, Trails.workspace h])
  leave h := Trails.congr h rfl rfl rfl rfl rfl (by rw [State.leave, State.leave, Trails.workspace h])
  unexpected _ _ := trivial
  invalid _ _ := trivial
  uninitialized _ _ := trivial
  resolve name h := by rw [Trails.workspace h]; rfl
  depth h := by rw [Trails.workspace h]
  globalName h := by rw [Trails.workspace h]

/-! ## The script over both sources -/

section

variable (ys : List Token) (rest : List (Lexed × Place)) (finish : Position)

/-- The run `u` has a program to come that closes all its blocks, and `ys` behind it. The runs over the first source and over both go
along with it. -/
structure Linked (ts more : List Token) (u s t : State) : Prop where
  leads : Leads ys ts more u s
  trails : Trails ys rest finish u t
  derives : Grammar.Derives .program (ts ++ more) []
  closed : Grammar.closesBlocks 0 (ts ++ more) = true

/-- The run over both sources comes to the items of the second when the run over the first comes to its end. -/
def Arrives (s t : State) : Prop :=
  ∃ t', Proper t' ∧ t.script = t'.script ∧ t'.workspace = s.script.1.workspace ∧ t'.stream.finish = finish ∧
    ((t'.current = .statementEnd ∧ ∃ lead, (∀ x ∈ lead, x.1 = .token .statementEnd) ∧ t'.stream.faces = lead ++ rest) ∨
      Entered t' rest)

/-- The runs are in front of a construct that takes up all separators at the end of the first source. -/
structure Crosses (token : Token) (ts more : List Token) (u u' s t : State) : Prop extends
    Linked ys rest finish (token :: ts) more u s t where
  nothing : ys = []
  separator : token ≠ .statementEnd
  stored : u.construct = .ok () u'
  ended : Sees u' []

/-- The runs come to a construct that takes up all separators, where `P` holds of the tokens to come. -/
def ComesAcross (P : List Token → Prop) (s t : State) : Prop :=
  ∃ token ts more u u' s' t', Crosses ys rest finish token ts more u u' s' t' ∧ P (token :: ts ++ more) ∧ Proper s' ∧ Proper t' ∧
    s.script = s'.script ∧ t.script = t'.script

/-- What holds of the tokens to come in front of `ys`, and goes on to hold from round to round. -/
structure Persists (P : List Token → Prop) : Prop where
  separator {ts : List Token} : P (.statementEnd :: ts) → P ts
  construct {token : Token} {ts front : List Token} {u u' : State} : Sees u (token :: ts ++ ys) → token ≠ .statementEnd →
    Grammar.closesBlocks 0 (token :: ts) = true → Grammar.EndsOpen (token :: ts) → u.construct = .ok () u' →
    Sees u' (front ++ ys) → front ++ ys ≠ [] → P (token :: ts) → P front

end

/-- As long as the first run has more to come than `ys`, this is what both runs have in common. -/
theorem Trails.inside (h : Trails ys rest finish u t) {us : List Token} (hu : Sees u (us ++ ys)) (hne : us ≠ []) :
    ∃ x ts, us = x :: ts ∧ Inside ys rest finish x ts u t := by
  rcases h with ⟨x, ts, h⟩ | h
  · exact ⟨x, ts, List.append_cancel_right (hu.unique h.sees), h⟩
  · exact absurd (List.append_cancel_right ((hu.unique h.sees).trans (List.nil_append ys).symm)) hne

/-- A construct that the first run stores is stored by the run over the first source. -/
theorem Leads.construct (hys : ys = [] ∨ ys = [.inert]) {token : Token} (h : Leads ys (token :: ts) more u s) {u' : State}
    (hu : u.construct = .ok () u') (hkept : ys.length ≤ u'.remaining) :
    ∃ ts' more' s', s.construct = .ok () s' ∧ Leads ys ts' more' u' s' := by
  have hstart : s.current = u.current := h.sees.current_eq.trans h.leads.current_eq.symm
  obtain ⟨gs, fs, u₁, s₁, hu₁, ⟨ts', more', h'⟩, hs⟩ :=
    (Simulation.constructs (S := leading ys hys) ⟨_, _, h⟩ hstart h.leads.current_ne_end).of_ok hu hkept
  refine ⟨ts', more', _, hs, h'.congr (by rw [hu₁]) (by rw [hu₁]) rfl rfl ?_⟩
  simp [hu₁, h'.workspace, leading]

/-- A construct that the first run stores without taking up the last separator is stored by the run over both sources. -/
theorem Trails.construct (hys : ys = [] ∨ ys = [.inert]) (hquiet : ys = [.inert] → Quiet rest) (h : Trails ys rest finish u t)
    {us : List Token} (hsees : Sees u (us ++ ys)) (hne : us ≠ []) {u' : State} (hu : u.construct = .ok () u')
    (hkept : 1 ≤ u'.remaining) : ∃ t', t.construct = .ok () t' ∧ Trails ys rest finish u' t' := by
  obtain ⟨x, _, _, hinside⟩ := h.inside hsees hne
  have hstart : t.current = u.current := hinside.current.trans hinside.sees.current_eq.symm
  obtain ⟨gs, fs, u₁, t₁, hu₁, h', ht⟩ :=
    (Simulation.constructs (S := trailing ys rest finish hys hquiet) h hstart hinside.sees.current_ne_end).of_ok hu hkept
  have hw := Trails.workspace h'
  exact ⟨_, ht, Trails.congr h' (by rw [hu₁]) (by rw [hu₁]) rfl rfl rfl (by simp [hu₁, hw, trailing])⟩

/-- No production goes on with a token that is never read. -/
theorem stops_of_inert (hys : ys = [] ∨ ys = [.inert]) : ∀ y ∈ ys, Grammar.Stops y := by
  rcases hys with rfl | rfl
  · simp
  · simp [Grammar.Stops, Token.inert, Grammar.operatorSymbols]

namespace Linked

/-- A separator that is not the last one in common is passed over by all three runs. -/
theorem pass_separator (h : Linked ys rest finish (.statementEnd :: ts) more u s t) (hne : ts ++ more ≠ []) :
    ∃ u' s' t', advance s = .ok () s' ∧ advance t = .ok () t' ∧ Linked ys rest finish ts more u' s' t' := by
  obtain ⟨u', s', hu, hs, hleads⟩ := h.leads.advance
  obtain ⟨x, us, heq, hinside⟩ := h.trails.inside h.leads.leads (by simp)
  rw [List.cons_append] at heq
  obtain ⟨rfl, rfl⟩ := List.cons.inj heq
  cases hus : ts ++ more with
  | nil => exact absurd hus hne
  | cons x us =>
    rw [hus] at hinside
    obtain ⟨u'', t', hu'', ht, hinside'⟩ := hinside.advance
    rw [hu] at hu''
    cases hu''
    exact ⟨u', s', t', hs, ht, hleads, Or.inl ⟨x, us, hinside'⟩, h.derives.program_separator, by simpa using h.closed⟩

/-- A construct that the run over the first source stores is stored by all three, if it does not take up all separators at the end. -/
theorem construct {P : List Token → Prop} (hys : ys = [] ∨ ys = [.inert]) (hquiet : ys = [.inert] → Quiet rest) (hP : Persists ys P)
    {token : Token} (h : Linked ys rest finish (token :: ts) more u s t) (hp : P (token :: ts ++ more)) (hsep : token ≠ .statementEnd) :
    (∃ u', Crosses ys rest finish token ts more u u' s t) ∨
      ∃ ts' more' u' s' t', s.construct = .ok () s' ∧ t.construct = .ok () t' ∧ Linked ys rest finish ts' more' u' s' t' ∧
        P (ts' ++ more') := by
  obtain ⟨u', us, huc, hu', front, rfl, hderives, hclosed⟩ :=
    State.complete_construct_remainder (stops_of_inert hys) h.leads.leads hsep h.derives h.closed
  by_cases hnil : front ++ ys = []
  · rw [hnil] at hu'
    exact Or.inl ⟨u', h, (List.append_eq_nil_iff.mp hnil).2, hsep, huc, hu'⟩
  · right
    have hkept : 1 ≤ u'.remaining := by
      rw [hu'.remaining]
      exact List.length_pos_iff.mpr hnil
    have hp' := hP.construct h.leads.leads hsep h.closed (h.leads.ends (by simp)) huc hu' hnil hp
    obtain ⟨ts', more', s', hs, hleads⟩ := h.leads.construct hys huc (by rw [hu'.remaining]; simp)
    obtain ⟨t', ht, htrails⟩ := h.trails.construct hys hquiet h.leads.leads (by simp) huc hkept
    obtain rfl := List.append_cancel_right (hu'.unique hleads.leads)
    exact ⟨ts', more', u', s', t', hs, ht, ⟨hleads, htrails, hderives, hclosed⟩, hp'⟩

/-- In front of the last separators in common the run over both sources has come to the items of the second. -/
theorem arrives (h : Linked ys rest finish ts more u s t) (ht : Proper t) (hall : ∀ token ∈ ts, token = .statementEnd)
    (hw : s.script.1.workspace = s.workspace) : Arrives rest finish s t := by
  have hworkspace : t.workspace = s.script.1.workspace := by rw [hw, h.leads.workspace, h.trails.workspace]
  rcases h.trails with ⟨x, us, hinside⟩ | hgone
  · have hsep : ∀ token ∈ x :: us, token = .statementEnd := by
      rw [← List.append_cancel_right (h.leads.leads.unique hinside.sees)]
      intro token htoken
      exact (List.mem_append.mp htoken).elim (hall token) (h.leads.separators token)
    obtain ⟨lead, hlead, hfaces⟩ := hinside.faces
    refine ⟨t, ht, rfl, hworkspace, hinside.finish, Or.inl ⟨hinside.current.trans (hsep x List.mem_cons_self), lead, ?_, hfaces⟩⟩
    intro y hy
    have hmem : y.1 ∈ us.map Lexed.token := by
      rw [← hlead]
      exact List.mem_map_of_mem hy
    obtain ⟨token, htoken, heq⟩ := List.mem_map.mp hmem
    rw [← heq, hsep token (List.mem_cons_of_mem _ htoken)]
  · exact ⟨t, ht, rfl, hworkspace, hgone.finish, Or.inr hgone.entered⟩

/-- If the first source is read without a diagnostic, the run over both comes to the items of the second, or to a construct that takes
up all separators between them. -/
theorem script {P : List Token → Prop} (hys : ys = [] ∨ ys = [.inert]) (hquiet : ys = [.inert] → Quiet rest) (hP : Persists ys P)
    (h : Linked ys rest finish ts more u s t) (hp : P (ts ++ more)) (hs : Proper s) (ht : Proper t) (hclean : s.script.2 = []) :
    (Arrives rest finish s t ∧ ∃ us, (∀ token ∈ us, token = .statementEnd) ∧ P us) ∨ ComesAcross ys rest finish P s t := by
  induction s, hs using State.inductRounds generalizing ts more u t with
  | ended s hs hend =>
    cases ts with
    | cons token ts => exact absurd hend h.leads.sees.current_ne_end
    | nil => exact Or.inl ⟨h.arrives ht (by simp) (by rw [State.script_end hend]), more, h.leads.separators, hp⟩
  | separator s hs hsep ih =>
    cases ts with
    | nil =>
      rw [h.leads.sees.current_nil] at hsep
      cases hsep
    | cons token ts =>
      obtain rfl : token = .statementEnd := h.leads.sees.current_eq.symm.trans hsep
      by_cases hne : ts ++ more = []
      · obtain ⟨rfl, rfl⟩ := List.append_eq_nil_iff.mp hne
        obtain ⟨s', hs', hsees⟩ := h.leads.sees.advance
        refine Or.inl ⟨h.arrives ht (by simp) ?_, [.statementEnd], by simp, hp⟩
        rw [State.script_separator hs hsep, State.pass_of_ok hs']
        dsimp only
        rw [State.script_end hsees.current_nil]
        exact (Steps.read hs' (.refl _)).workspace_eq
      · obtain ⟨u', s', t', hs', ht', h'⟩ := h.pass_separator hne
        have hscript : s.script = s'.script := by rw [State.script_separator hs hsep, State.pass_of_ok hs']; rfl
        have hcurrent : t.current = .statementEnd := by
          obtain ⟨x, _, heq, hinside⟩ := h.trails.inside h.leads.leads (by simp)
          cases heq
          exact hinside.current
        have hscript' : t.script = t'.script := by rw [State.script_separator ht hcurrent, State.pass_of_ok ht']; rfl
        rw [State.pass_of_ok hs'] at ih
        rw [Arrives, ComesAcross, hscript, hscript']
        exact ih h' (hP.separator hp) (ht.advance ht') (hscript ▸ hclean)
  | stored s s' hs hend hsep hc ih =>
    cases ts with
    | nil => exact absurd h.leads.sees.current_nil hend
    | cons token ts =>
      have htoken : token ≠ .statementEnd := fun heq => hsep (h.leads.sees.current_eq.trans heq)
      rcases h.construct hys hquiet hP hp htoken with ⟨u', hcross⟩ | ⟨ts', more', u', s₁, t', hc₁, hc', h', hp'⟩
      · exact Or.inr ⟨token, ts, more, u, u', s, t, hcross, hp, hs, ht, rfl, rfl⟩
      · rw [hc] at hc₁
        cases hc₁
        obtain ⟨x, _, heq, hinside⟩ := h.trails.inside h.leads.leads (by simp)
        cases heq
        have hcurrent : t.current = s.current := hinside.current.trans h.leads.sees.current_eq.symm
        have hend' : t.current ≠ .endOfInput := hcurrent ▸ hend
        rw [State.script_stored hs hend hsep hc] at hclean
        rw [Arrives, ComesAcross, State.script_stored hs hend hsep hc, State.script_stored ht hend' (hcurrent ▸ hsep) hc']
        exact ih h' hp' (State.construct_proper hc' hend' ht).1 hclean
  | failed s d s' hs hend hsep hc ih =>
    rw [State.script_failed hs hend hsep hc] at hclean
    cases hclean

end Linked

/-! ## Both sources -/

/-- Where a run has read the first item of a source that is no separator, further down, it reads the source. -/
theorem Entered.reads {source : String} {n : Nat} {lead rest : List (Lexed × Place)} (h : Entered t (rest.map (faceDown n)))
    (hlead : ∀ x ∈ lead, x.1 = .token .statementEnd) (hsource : (TokenStream.ofSource source).faces = lead ++ rest)
    (hfinish : t.stream.finish.place = (TokenStream.ofSource source).finish.place.down n) :
    t.script.1.workspace = (t.workspace.read source).workspace ∧
      t.script.2 = (t.workspace.read source).diagnostics.map (Diagnostic.down n) := by
  obtain ⟨s, hs, hcurrent, hfaces, hfinish', hworkspace, hscript⟩ :=
    State.script_separators (.start source t.workspace) rfl hlead hsource
  have hw : s.workspace = t.workspace := hworkspace
  have hfinish'' : t.stream.finish.place = s.stream.finish.place.down n := by
    rw [hfinish, hfinish']
    rfl
  obtain ⟨s', hs', hcurrent', hfaces', hplace, hfinal⟩ : ∃ s', advance s = .ok () s' ∧ t.current = s'.current ∧
      t.stream.faces = s'.stream.faces.map (faceDown n) ∧ t.place = s'.place.down n ∧ s'.stream.finish = s.stream.finish := by
    cases hi : s.stream.items with
    | nil =>
      obtain rfl : [] = rest := by rw [← hfaces, TokenStream.faces_of_items_nil hi]
      refine ⟨_, advance_end hi, h.1, ?_, h.2.1.trans hfinish'', rfl⟩
      rw [h.2.2, TokenStream.faces_of_items_nil hi]
      rfl
    | cons i is =>
      rw [State.faces_take hi] at hfaces
      subst hfaces
      exact ⟨_, advance_token hi h.1, rfl, h.2.2, h.2.1, rfl⟩
  have hw' : s'.workspace = t.workspace := (Steps.read hs' (.refl _)).workspace_eq.trans hw
  have habreast : Abreast n id s' t := by
    refine ⟨⟨hcurrent', hfaces', ?_, fun name => by rw [hw']; rfl, by rw [hw'], by rw [hw']⟩, hplace⟩
    rw [hfinish'', hfinal]
  refine (habreast.script (hs.advance hs')).read hw' ?_
  rw [hscript, State.script_separator hs hcurrent, State.pass_of_ok hs']
  rfl

/-- When the run over both sources has come to the items of the second, it reads the second. -/
theorem Arrives.reads {source : String} {n : Nat} {lead rest : List (Lexed × Place)}
    (h : Arrives (rest.map (faceDown n)) finish s t) (hlead : ∀ x ∈ lead, x.1 = .token .statementEnd)
    (hsource : (TokenStream.ofSource source).faces = lead ++ rest)
    (hfinish : finish.place = (TokenStream.ofSource source).finish.place.down n) :
    t.script.1.workspace = (s.script.1.workspace.read source).workspace ∧
      t.script.2 = (s.script.1.workspace.read source).diagnostics.map (Diagnostic.down n) := by
  obtain ⟨t', ht', hscript, hw, hfinish', harrived⟩ := h
  rw [← hfinish'] at hfinish
  rw [hscript, ← hw]
  rcases harrived with ⟨hcurrent, lead', hlead', hfaces⟩ | hentered
  · obtain ⟨t'', _, hcurrent', hfaces', hfinish'', hw', hscript'⟩ := State.script_separators ht' hcurrent hlead' hfaces
    rw [hscript', ← hw']
    exact State.script_of_faces hcurrent' hlead hsource hfaces' (by rw [hfinish'', hfinish])
  · exact hentered.reads hlead hsource hfinish

end Offside
