import Offside.Proofs.Separation.Runs

/-!
# What a line feed separates

Two sources with a line feed between them are read as one. If the first is read without a diagnostic and closes all its blocks, its
constructs are stored as they would be alone, and the second source is read as it would be alone, further down.

There is one exception. A condition without another branch passes over the separators behind it to look for that branch. If the first
source ends in such a condition, the second must not go on with an operator or a malformed literal there, as it must not begin with
another branch.
-/

namespace Offside

open Production

/-- The token that an item of a stream is, if it is one. -/
def Lexed.token? : Lexed → Option Token
  | .token t => some t
  | .malformed _ => none

/-- The tokens of a stream, without malformed literals. -/
def TokenStream.tokens (s : TokenStream) : List Token := s.items.filterMap (·.lexed.token?)

/-- The tokens of a stream without malformed literals are its items. -/
theorem TokenStream.tokens_eq {s : TokenStream} {ts : List Token} (h : s.items.map (·.lexed) = ts.map .token) : s.tokens = ts := by
  have hcomp : s.tokens = (s.items.map (·.lexed)).filterMap Lexed.token? := by rw [List.filterMap_map]; rfl
  rw [hcomp, h, List.filterMap_map]
  exact List.filterMap_some

/-- The first item of a stream that is no separator. -/
def TokenStream.first? (s : TokenStream) : Option Lexed := (s.items.map (·.lexed)).find? (· ≠ .token .statementEnd)

/-- Whether an item disturbs a condition that looks for another branch, without being one: a malformed literal or an operator. -/
def Lexed.disturbs : Lexed → Bool
  | .token t => (Operator.ofToken? t).isSome
  | .malformed _ => true

/-- The separators that a stream begins with do not count. -/
theorem TokenStream.first?_of_faces {s : TokenStream} {lead rest : List (Lexed × Place)}
    (hlead : ∀ x ∈ lead, x.1 = .token .statementEnd) (h : s.faces = lead ++ rest)
    (hrest : ∀ x ∈ rest.head?, x.1 ≠ .token .statementEnd) : s.first? = rest.head?.map Prod.fst := by
  have hnone : (lead.map Prod.fst).find? (· ≠ .token .statementEnd) = none := by
    rw [List.find?_eq_none]
    intro x hx
    obtain ⟨y, hy, rfl⟩ := List.mem_map.mp hx
    simpa using hlead y hy
  rw [first?, ← map_fst_faces, h, List.map_append, List.find?_append, hnone, Option.none_or]
  cases rest with
  | nil => rfl
  | cons x rest =>
    have hx := hrest x rfl
    simp [hx]

/-- Two sources with a line feed between them are read one after the other: the second is read as it would be read by itself, further
down. -/
def ReadApart (w : Workspace) (a b : String) : Prop :=
  (w.read (a ++ "\n" ++ b)).workspace = ((w.read a).workspace.read b).workspace ∧
    (w.read (a ++ "\n" ++ b)).diagnostics =
      ((w.read a).workspace.read b).diagnostics.map (Diagnostic.down (lineAt (a ++ "\n" ++ b) (a.length + 1) - 1))

/-- A source that may be followed by another branch of a condition. -/
def AwaitsBranch (w : Workspace) (a : String) : Prop := (w.read (a ++ "\n" ++ "else 0")).diagnostics = []

variable {a b : String} {ts more ys branch : List Token} {u : State} {w : Workspace}

/-! ## The runs to begin with -/

/-- The separators between two sources. -/
theorem CutOff.Fence.separators {fence : List (Lexed × Place)} (h : CutOff.Fence (.ofSource a) fence)
    (hts : (TokenStream.ofSource a).items.map (·.lexed) = ts.map .token) :
    ∃ more : List Token, fence.map Prod.fst = more.map .token ∧ (∀ t ∈ more, t = .statementEnd) ∧ (more ≠ [] ∨ Grammar.EndsOpen ts) := by
  cases h with
  | separator => exact ⟨[.statementEnd], rfl, by simp, Or.inl (by simp)⟩
  | none front place hlast =>
    refine ⟨[], rfl, by simp, Or.inr ?_⟩
    have hmap := congrArg (fun xs => (xs.map Prod.fst).getLast?) hlast
    rw [TokenStream.map_fst_faces, hts] at hmap
    have hgetLast : ts.getLast?.map Lexed.token = some (.token .statementEnd) := by simpa using hmap
    obtain ⟨t, ht, heq⟩ := Option.map_eq_some_iff.mp hgetLast
    cases heq
    exact ht

/-- The tokens in front of the items of the second source. Some of the separators that it begins with may be among them. -/
theorem TokenStream.map_fst_front {fence passed : List (Lexed × Place)} (n : Nat)
    (hts : (ofSource a).items.map (·.lexed) = ts.map .token) (hmap : (fence ++ passed).map Prod.fst = more.map .token) :
    ((ofSource a).faces ++ fence ++ passed.map (faceDown n)).map Prod.fst = (ts ++ more).map .token := by
  have hpassed : (passed.map (faceDown n)).map Prod.fst = passed.map Prod.fst := List.map_map
  rw [List.map_append, List.map_append, map_fst_faces, hts, hpassed, List.append_assoc, ← List.map_append, hmap, ← List.map_append]

/-- A stream of tokens that all stand at one place. -/
def TokenStream.ofTokens (ts : List Token) (position : Position) : TokenStream where
  items := ts.map fun t => { lexed := .token t, position }
  finish := position
  size := ts.length
  size_eq := List.length_map _ |>.symm

/-- The stream of given tokens holds them in order. -/
theorem TokenStream.lexed_ofTokens (ts : List Token) (position : Position) :
    (ofTokens ts position).items.map (·.lexed) = ts.map .token := by
  rw [ofTokens, List.map_map]
  rfl

/-- A run that has the tokens of the first source to come, separators and `ys`. -/
theorem Leads.start (w : Workspace) (hts : (TokenStream.ofSource a).items.map (·.lexed) = ts.map .token)
    (hmore : ∀ t ∈ more, t = .statementEnd) (hfenced : more ≠ [] ∨ Grammar.EndsOpen ts) (hys : ys = [] ∨ ys = [.inert]) :
    ∃ u, u.workspace = w ∧ Leads ys (.statementEnd :: ts) more u (.start a w) := by
  have hsees : Sees (State.start a w) (.statementEnd :: ts) := .start w hts
  let u : State := { State.start a w with stream := .ofTokens (ts ++ more ++ ys) (.start a) }
  refine ⟨u, rfl, hsees, ⟨rfl, TokenStream.lexed_ofTokens _ _, ?_⟩, hmore, fun _ => hfenced.imp id fun hopen => hopen.cons _, rfl⟩
  intro hmem
  simp only [List.append_assoc, List.mem_append] at hmem
  rcases hmem with hmem | hmem | hmem
  · exact hsees.proper hmem
  · cases hmore _ hmem
  · rcases hys with rfl | rfl
    · cases hmem
    · cases List.mem_singleton.mp hmem

/-- The run over both sources goes along with it. -/
theorem Trails.start {source : String} (hu : Sees u (.statementEnd :: (ts ++ more) ++ ys))
    (hends : Grammar.EndsOpen (.statementEnd :: (ts ++ more))) {front rest : List (Lexed × Place)}
    (hfront : front.map Prod.fst = (ts ++ more).map .token) (hfaces : (TokenStream.ofSource source).faces = front ++ rest) :
    Trails ys rest (TokenStream.ofSource source).finish u (.start source u.workspace) :=
  Or.inl ⟨.statementEnd, ts ++ more, hu, hends, rfl, ⟨front, hfront, hfaces⟩, rfl, rfl⟩

/-- The tokens of another branch of a condition. -/
def elseBranch : List Token := [.keyword .else_, .number ⟨0⟩]

/-- These tokens are derivable as another branch of a condition. -/
theorem derives_elseBranch : Grammar.Derives .otherwise elseBranch [] :=
  .otherwise (.noSeparator _) (.expression (.number _ _) (.noOperation _))

/-- A source that is read without a diagnostic has no malformed literals. -/
theorem clean_tokens (h : (w.read a).diagnostics = []) :
    (TokenStream.ofSource a).items.map (·.lexed) = (TokenStream.ofSource a).tokens.map .token := by
  obtain ⟨ts, hts⟩ := State.scriptUpTo_tokens _ (Nat.le_refl _) (.start a w) h
  have htokens : (TokenStream.ofSource a).tokens = ts := TokenStream.tokens_eq hts
  rw [htokens]
  exact hts

/-- A source without malformed literals is read without a diagnostic if it is a program. -/
theorem clean_iff_derives (w : Workspace) (hts : (TokenStream.ofSource a).items.map (·.lexed) = ts.map .token) :
    (w.read a).diagnostics = [] ↔ Grammar.Derives .program ts [] := by
  have hs : Sees (State.start a w) (.statementEnd :: ts) := .start w hts
  have hclean := State.scriptUpTo_clean_iff_derives _ (Nat.le_of_eq hs.remaining.symm) hs
  exact hclean.trans ⟨fun hd => hd.program_separator, .programSeparator⟩

/-- A program that does not wait for another branch does not begin to wait. -/
theorem persists_not_awaits : Persists [] fun ts => ¬Grammar.Derives .program (ts ++ elseBranch) [] where
  separator hno hd := hno (.programSeparator hd)
  construct := by
    intro token ts front u u' hu _ hclosed hopen huc hu' _ hno
    rw [List.append_nil] at hu hu'
    obtain ⟨us, hus, _, hno'⟩ := State.construct_unawaited derives_elseBranch hu hclosed hopen huc hno
    rwa [hus.unique hu'] at hno'

/-- A source that is read without a diagnostic waits for another branch exactly if one may stand behind it and a separator. -/
theorem awaitsBranch_iff (w : Workspace) {fence : List (Lexed × Place)}
    (hjoin : ∀ b, ∃ lead rest, TokenStream.Splice a b fence lead rest)
    (hts : (TokenStream.ofSource a).items.map (·.lexed) = ts.map .token) (hfence : fence.map Prod.fst = more.map .token) :
    AwaitsBranch w a ↔ Grammar.Derives .program (ts ++ more ++ elseBranch) [] := by
  obtain ⟨lead, rest, hsplice⟩ := hjoin "else 0"
  have hbranch : (lead ++ rest).map Prod.fst = elseBranch.map .token := by
    rw [← hsplice.second, TokenStream.map_fst_faces]
    decide +kernel
  -- the first token is no separator
  have hnil : lead = [] := by
    cases lead with
    | nil => rfl
    | cons x lead =>
      have hx := hsplice.separators x List.mem_cons_self
      rw [List.cons_append, List.map_cons, hx] at hbranch
      cases hbranch
  subst hnil
  refine clean_iff_derives w ?_
  rw [← TokenStream.map_fst_faces, hsplice.faces, List.map_append, List.map_append, TokenStream.map_fst_faces, hts, hfence, List.map_append,
    List.map_append, ← hbranch, List.map_map]
  rfl

/-- Items further down are quiet as the given ones are. -/
theorem Quiet.down {rest : List (Lexed × Place)} (h : Quiet rest) (n : Nat) : Quiet (rest.map (faceDown n)) := by
  intro x hx
  rw [List.head?_map] at hx
  obtain ⟨y, hy, rfl⟩ := Option.map_eq_some_iff.mp hx
  exact h y hy

/-- The three runs to begin with. Some of the separators that the second source begins with may be taken for those between the
sources. -/
theorem Linked.start (hclean : (w.read a).diagnostics = []) (hts : (TokenStream.ofSource a).items.map (·.lexed) = ts.map .token)
    (hclosed : Grammar.closesBlocks 0 ts = true) {fence lead rest : List (Lexed × Place)} (passed : List (Lexed × Place))
    (hsplice : TokenStream.Splice a b fence lead (passed ++ rest)) (hmap : (fence ++ passed).map Prod.fst = more.map .token)
    (hmore : ∀ t ∈ more, t = .statementEnd) (hfenced : more ≠ [] ∨ Grammar.EndsOpen ts) (hys : ys = [] ∨ ys = [.inert]) :
    ∃ u, Linked ys (rest.map (faceDown (lineAt (a ++ "\n" ++ b) (a.length + 1) - 1))) (TokenStream.ofSource (a ++ "\n" ++ b)).finish
      (.statementEnd :: ts) more u (.start a w) (.start (a ++ "\n" ++ b) w) := by
  obtain ⟨u, hw, hleads⟩ := Leads.start w hts hmore hfenced hys
  have hfaces := hsplice.faces
  rw [List.map_append, ← List.append_assoc] at hfaces
  have htrails := Trails.start hleads.leads (hleads.ends (by simp)) (TokenStream.map_fst_front _ hts hmap) hfaces
  rw [hw] at htrails
  have hd := (clean_iff_derives w hts).mp hclean
  obtain ⟨hd', hclosed'⟩ := Grammar.separators_program hmore
  exact ⟨u, hleads, htrails, .programSeparator (hd.program_append hclosed hd'), Grammar.closesBlocks_append hclosed hclosed'⟩

/-- If the run over both sources comes to the items of the second, the two are read one after the other. -/
theorem ReadApart.of_arrives {fence lead rest : List (Lexed × Place)} (passed : List (Lexed × Place))
    (hsplice : TokenStream.Splice a b fence lead (passed ++ rest)) (hpassed : ∀ x ∈ passed, x.1 = .token .statementEnd)
    (h : Arrives (rest.map (faceDown (lineAt (a ++ "\n" ++ b) (a.length + 1) - 1))) (TokenStream.ofSource (a ++ "\n" ++ b)).finish
      (.start a w) (.start (a ++ "\n" ++ b) w)) : ReadApart w a b := by
  have hlead : ∀ x ∈ lead ++ passed, x.1 = .token .statementEnd :=
    fun x hx => (List.mem_append.mp hx).elim (hsplice.separators x) (hpassed x)
  exact h.reads hlead (by rw [hsplice.second, List.append_assoc]) hsplice.finish

/-- The separators that a stream begins with come first, and then the first item that is none. -/
theorem TokenStream.first?_split {s : TokenStream} {lead rest : List (Lexed × Place)} (hlead : ∀ x ∈ lead, x.1 = .token .statementEnd)
    (h : s.faces = lead ++ rest) :
    ∃ passed behind, rest = passed ++ behind ∧ (∀ x ∈ passed, x.1 = .token .statementEnd) ∧
      (∀ x ∈ behind.head?, x.1 ≠ .token .statementEnd) ∧ s.first? = behind.head?.map Prod.fst := by
  induction rest generalizing lead with
  | nil => exact ⟨[], [], rfl, by simp, by simp, first?_of_faces hlead h (by simp)⟩
  | cons x rest ih =>
    by_cases hx : x.1 = .token .statementEnd
    · have hlead' : ∀ y ∈ lead ++ [x], y.1 = .token .statementEnd := by
        intro y hy
        rcases List.mem_append.mp hy with hy | hy
        · exact hlead y hy
        · rwa [List.mem_singleton.mp hy]
      obtain ⟨passed, behind, rfl, hpassed, hstop, hfirst⟩ := ih hlead' (by rw [h, List.append_assoc]; rfl)
      exact ⟨x :: passed, behind, rfl, by simpa [hx] using hpassed, hstop, hfirst⟩
    · exact ⟨[], x :: rest, rfl, by simp, by simpa using hx, first?_of_faces hlead h (by simpa using hx)⟩

/-- A second source that begins with neither an operator nor a malformed literal nor another branch does not disturb the first. -/
theorem readApart_of_undisturbed (hclean : (w.read a).diagnostics = [])
    (hclosed : Grammar.closesBlocks 0 (TokenStream.ofSource a).tokens = true)
    (helse : (TokenStream.ofSource b).first? ≠ some (.token (.keyword .else_)))
    (hfirst : ∀ x ∈ (TokenStream.ofSource b).first?, x.disturbs = false) : ReadApart w a b := by
  have hts := clean_tokens hclean
  obtain ⟨fence, hfence, hjoin⟩ := TokenStream.ofSource_join a
  obtain ⟨lead, rest, hsplice⟩ := hjoin b
  obtain ⟨more, hmap, hmore, hfenced⟩ := hfence.separators hts
  -- the separators that the second source begins with are passed over with those between the sources
  obtain ⟨passed, behind, rfl, hpassed, hstop, hfirst?⟩ := TokenStream.first?_split hsplice.separators hsplice.second
  have hquiet : Quiet behind := by
    intro x hx
    rw [Option.mem_def.mp hx] at hfirst?
    have hx' := hfirst x.1 hfirst?
    have hsep := hstop x hx
    rw [hfirst?] at helse
    cases hl : x.1 with
    | malformed literal =>
      rw [hl] at hx'
      cases hx'
    | token token =>
      rw [hl] at hx' hsep
      refine ⟨token, rfl, fun heq => hsep (by rw [heq]), fun heq => helse ?_, by simpa [Lexed.disturbs] using hx'⟩
      rw [Option.map_some, hl, heq]
  have hmap' : (fence ++ passed).map Prod.fst = (more ++ passed.map fun _ => Token.statementEnd).map .token := by
    rw [List.map_append, List.map_append, hmap, List.map_map]
    congr 1
    exact List.map_congr_left hpassed
  have hmore' : ∀ t ∈ more ++ passed.map fun _ => Token.statementEnd, t = .statementEnd := by
    intro t ht
    rcases List.mem_append.mp ht with ht | ht
    · exact hmore t ht
    · obtain ⟨_, _, rfl⟩ := List.mem_map.mp ht
      rfl
  obtain ⟨u, hlinked⟩ := Linked.start hclean hts hclosed passed hsplice hmap' hmore'
    (hfenced.imp (fun hne hnil => hne (List.append_eq_nil_iff.mp hnil).1) id) (Or.inr rfl)
  have htrivial : Persists [.inert] fun _ => True := ⟨fun _ => trivial, fun _ _ _ _ _ _ _ _ => trivial⟩
  rcases hlinked.script (Or.inr rfl) (fun _ => hquiet.down _) htrivial trivial (.start a w) (.start _ w) hclean with
    ⟨harrives, _⟩ | ⟨_, _, _, _, _, _, _, hcross, _⟩
  · exact .of_arrives passed hsplice hpassed harrives
  · cases hcross.nothing

/-- A first source that does not wait for another branch is not disturbed. -/
theorem readApart_of_not_awaits (hclean : (w.read a).diagnostics = [])
    (hclosed : Grammar.closesBlocks 0 (TokenStream.ofSource a).tokens = true) (hno : ¬AwaitsBranch w a) : ReadApart w a b := by
  have hts := clean_tokens hclean
  obtain ⟨fence, hfence, hjoin⟩ := TokenStream.ofSource_join a
  obtain ⟨lead, rest, hsplice⟩ := hjoin b
  obtain ⟨more, hmap, hmore, hfenced⟩ := hfence.separators hts
  obtain ⟨u, hlinked⟩ := Linked.start hclean hts hclosed [] hsplice (by simpa using hmap) hmore hfenced (Or.inl rfl)
  have hno' : ¬Grammar.Derives .program (.statementEnd :: (TokenStream.ofSource a).tokens ++ more ++ elseBranch) [] :=
    fun hd => hno ((awaitsBranch_iff w hjoin hts hmap).mpr hd.program_separator)
  rcases hlinked.script (Or.inl rfl) (fun hinert => by cases hinert) persists_not_awaits hno' (.start a w) (.start _ w) hclean with
    ⟨harrives, _⟩ | ⟨token, ts, more, u, u', s, t, hcross, hno, _⟩
  · exact .of_arrives [] hsplice (by simp) harrives
  · -- a construct that takes up all separators waits for another branch
    have hsees := hcross.leads.leads
    rw [List.append_nil] at hsees
    obtain ⟨us, hus, hne, _⟩ :=
      State.construct_unawaited derives_elseBranch hsees hcross.closed (hcross.leads.ends (by simp)) hcross.stored hno
    exact absurd (hus.unique hcross.ended) hne

end Offside
