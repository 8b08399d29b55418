import Mathlib.Data.List.Forall2
import Offside.Proofs.Grammar.Rounds
import Offside.Proofs.Token.Join

/-!
# Reading the same tokens elsewhere

What reading adds to a workspace depends on the tokens to come, on the table of external names and on little else. Two runs are
`Abreast` if they have the same tokens to come, the second a number of lines further down and under a table that gives other names;
then they stay abreast, and what they add is the same up to these names (`Abreast.script`).

Main statement: the table of external names is a renaming of what is read without it, applied once to every name.
-/

namespace Offside

open Production

/-- What is wrong is the same, up to the name of a variable that is declared without a value. -/
inductive Cause.Renamed (f : String → String) : Cause → Cause → Prop where
  | same (c : Cause) : Renamed f c c
  | declaration (name : String) : Renamed f (.invalidDeclaration (uninitialized name)) (.invalidDeclaration (uninitialized (f name)))

/-- Two diagnostics for the same thing, the second a number of lines further down and under other names. -/
structure Diagnostic.Moved (n : Nat) (f : String → String) (d e : Diagnostic) : Prop where
  place : e.place = d.place.down n
  cause : Cause.Renamed f d.cause e.cause

/-- Two runs have the same tokens to come, the second `n` lines further down and under a table that renames by `f`. -/
structure Aligned (n : Nat) (f : String → String) (s t : State) : Prop where
  current : t.current = s.current
  faces : t.stream.faces = s.stream.faces.map (faceDown n)
  finish : t.stream.finish.place = s.stream.finish.place.down n
  resolve : ∀ name, t.workspace.externals.resolve name = f (s.workspace.externals.resolve name)
  depth : t.workspace.depth = s.workspace.depth
  globalName : t.workspace.globalName = s.workspace.globalName

/-- Two aligned runs that have read the last token at the same place, up to the `n` lines between them. -/
structure Abreast (n : Nat) (f : String → String) (s t : State) : Prop extends Aligned n f s t where
  place : t.place = s.place.down n

/-! ## The items to come -/

/-- A stream with no items shows none. -/
theorem TokenStream.faces_of_items_nil {s : TokenStream} (h : s.items = []) : s.faces = [] := by
  rw [faces, h]
  rfl

/-- The first item that a stream shows is the one that is read next. -/
theorem State.faces_take {s : State} {i : Item} {is : List Item} (h : s.stream.items = i :: is) :
    s.stream.faces = i.face :: (s.take i).stream.faces := by
  rw [TokenStream.faces, TokenStream.faces, take, TokenStream.tail_items, h]
  rfl

/-- The first of the items to come, and those behind it. -/
theorem State.items_of_faces {s : State} {x : Lexed × Place} {xs : List (Lexed × Place)} (h : s.stream.faces = x :: xs) :
    ∃ i is, s.stream.items = i :: is ∧ i.lexed = x.1 ∧ i.place = x.2 ∧ (s.take i).stream.faces = xs := by
  obtain ⟨i, is, hi, rfl, rfl⟩ := List.map_eq_cons_iff.mp h
  rw [faces_take hi] at h
  exact ⟨i, is, hi, rfl, rfl, (List.cons.inj h).2⟩

/-! ## Aligned runs -/

namespace Aligned

variable {n : Nat} {f : String → String} {s t : State}

theorem note (h : Aligned n f s t) (event event' : Event) : Aligned n f (s.note event) (t.note event') :=
  ⟨h.current, h.faces, h.finish, h.resolve, h.depth, h.globalName⟩

/-- Of aligned runs the second is proper if the first is. -/
theorem proper (h : Aligned n f s t) (hs : Proper s) : Proper t where
  finished hend := by
    have hnil := h.faces
    rw [TokenStream.faces, TokenStream.faces, hs.finished (h.current.symm.trans hend)] at hnil
    exact List.map_eq_nil_iff.mp hnil
  tokens j hj heq := by
    have hmem : j.face ∈ s.stream.faces.map (faceDown n) := by
      rw [← h.faces]
      exact List.mem_map_of_mem hj
    rw [TokenStream.faces, List.map_map] at hmem
    obtain ⟨i, hi, hface⟩ := List.mem_map.mp hmem
    exact hs.tokens i hi ((Prod.mk.inj hface).1.trans heq)

/-- Reading a token brings two aligned runs abreast. -/
theorem advance (h : Aligned n f s t) :
    Corresponds (Abreast n f) (Diagnostic.Moved n f) id (Production.advance s) (Production.advance t) := by
  have hfaces := h.faces
  cases hi : s.stream.items with
  | nil =>
    rw [TokenStream.faces_of_items_nil hi] at hfaces
    rw [advance_end hi, advance_end (List.map_eq_nil_iff.mp hfaces)]
    exact .ok () ⟨⟨rfl, h.faces, h.finish, h.resolve, h.depth, h.globalName⟩, h.finish⟩
  | cons i is =>
    rw [State.faces_take hi] at hfaces
    obtain ⟨j, js, hj, hlexed, hplace, htail⟩ := State.items_of_faces hfaces
    cases hl : i.lexed with
    | token token =>
      rw [advance_token hi hl, advance_token hj (hlexed.trans hl)]
      exact .ok () ⟨⟨rfl, htail, h.finish, h.resolve, h.depth, h.globalName⟩, hplace⟩
    | malformed literal =>
      rw [advance_malformed hi hl, advance_malformed hj (hlexed.trans hl)]
      exact .error ⟨hplace, .same _⟩ ⟨⟨h.current, htail, h.finish, h.resolve, h.depth, h.globalName⟩, hplace⟩

/-- Passing over the lookahead brings two aligned runs abreast. -/
theorem pass (h : Aligned n f s t) :
    Abreast n f s.pass.1 t.pass.1 ∧ List.Forall₂ (Diagnostic.Moved n f) s.pass.2 t.pass.2 := by
  generalize hk : s.stream.size = k
  induction k using Nat.strongRecOn generalizing s t with
  | ind k ih =>
    have hcorr := h.advance
    generalize hp : Production.advance s = first at hcorr
    generalize hq : Production.advance t = second at hcorr
    cases hcorr with
    | ok _ hrel =>
      rw [State.pass_of_ok hp, State.pass_of_ok hq]
      exact ⟨hrel, .nil⟩
    | error herr hrel =>
      rw [State.pass_of_error hp, State.pass_of_error hq]
      obtain ⟨i, is, literal, hi, _, rfl, _⟩ := advance_error_cases hp
      have hsize := s.stream.size_eq
      rw [hi, List.length_cons] at hsize
      obtain ⟨hrel', hmore⟩ := ih (s.stream.tail.size) (by rw [TokenStream.tail_size]; omega) (hrel.note _ _) rfl
      exact ⟨hrel', .cons herr hmore⟩

end Aligned

namespace Abreast

variable {n : Nat} {f : String → String} {s t : State}

theorem note (h : Abreast n f s t) (event event' : Event) : Abreast n f (s.note event) (t.note event') :=
  ⟨h.toAligned.note event event', h.place⟩

/-- What has been stored does not matter. -/
theorem extend (h : Abreast n f s t) (gs fs gs' fs' : List Function) :
    Abreast n f { s with workspace := s.workspace.extend gs fs } { t with workspace := t.workspace.extend gs' fs' } :=
  ⟨⟨h.current, h.faces, h.finish, h.resolve, h.depth, h.globalName⟩, h.place⟩

/-- Runs that are abreast pass over the same separators. -/
theorem skip (h : Abreast n f s t) :
    Corresponds (Abreast n f) (Diagnostic.Moved n f) id (skipStatementEnds s) (skipStatementEnds t) := by
  generalize hk : s.remaining = k
  induction k using Nat.strongRecOn generalizing s t with
  | ind k ih =>
    rw [skipStatementEnds_eq, current_bind, current_bind, h.current]
    split
    · rename_i hc
      have hcorr := h.advance
      generalize hp : Production.advance s = first at hcorr
      generalize hq : Production.advance t = second at hcorr
      cases hcorr with
      | ok _ hrel =>
        rw [bind_of_ok hp, bind_of_ok hq]
        exact ih _ (hk ▸ advance_remaining_lt hp (by simp [hc])) hrel rfl
      | error herr hrel =>
        rw [bind_of_error hp, bind_of_error hq]
        exact .error herr hrel
    · exact .ok () h

end Abreast

/-- Runs that are abreast stay abreast. -/
def abreast (n : Nat) (f : String → String) : Simulation where
  Rel := Abreast n f
  Err := Diagnostic.Moved n f
  rename := f
  Spans := True
  kept := 0
  token h := Or.inl (Or.inl h.current)
  spans _ _ := trivial
  read h _ _ _ _ := h.advance.mono fun h => ⟨h, Or.inl h.current⟩
  skip _ h := Or.inr h.skip
  note event event' h := h.note event event'
  enter h := ⟨⟨h.current, h.faces, h.finish, h.resolve, congrArg (· + 1) h.depth, h.globalName⟩, h.place⟩
  leave h := ⟨⟨h.current, h.faces, h.finish, h.resolve, congrArg (· - 1) h.depth, h.globalName⟩, h.place⟩
  unexpected expected h := by
    refine ⟨h.place, ?_⟩
    simp only [State.unexpected, h.current]
    exact .same _
  invalid detail h := ⟨h.place, .same _⟩
  uninitialized name h := ⟨h.place, .declaration name⟩
  resolve name h := h.resolve name
  depth h := h.depth
  globalName h := h.globalName

/-- What two scripts add to their workspaces and report is the same, up to names and lines. -/
def ScriptsAlike (n : Nat) (f : String → String) (s t : State) : Prop :=
  ∃ gs fs, s.script.1.workspace = s.workspace.extend gs fs ∧
    t.script.1.workspace = t.workspace.extend (gs.map (.renamed f)) (fs.map (.renamed f)) ∧
    List.Forall₂ (Diagnostic.Moved n f) s.script.2 t.script.2

namespace ScriptsAlike

variable {n : Nat} {f : String → String} {s t s' t' : State}

/-- Behind a round that adds nothing the scripts go on alike, and the diagnostics of the round come first. -/
theorem of_rest {ds es : List Diagnostic} (h : ScriptsAlike n f s' t') (hs : s.script = (s'.script.1, ds ++ s'.script.2))
    (ht : t.script = (t'.script.1, es ++ t'.script.2)) (hw : s'.workspace = s.workspace) (hw' : t'.workspace = t.workspace)
    (hround : List.Forall₂ (Diagnostic.Moved n f) ds es) : ScriptsAlike n f s t := by
  obtain ⟨gs, fs, hadd, hadd', hmore⟩ := h
  rw [ScriptsAlike, hs, ht]
  exact ⟨gs, fs, hw ▸ hadd, hw' ▸ hadd', List.rel_append hround hmore⟩

/-- Behind a construct that is stored the scripts go on alike. -/
theorem of_stored (gs fs : List Function) (h : ScriptsAlike n f s' t') (hs : s.script = s'.script) (ht : t.script = t'.script)
    (hw : s'.workspace = s.workspace.extend gs fs)
    (hw' : t'.workspace = t.workspace.extend (gs.map (.renamed f)) (fs.map (.renamed f))) : ScriptsAlike n f s t := by
  obtain ⟨gs', fs', hadd, hadd', hmore⟩ := h
  rw [hw, Workspace.extend_extend] at hadd
  rw [hw', Workspace.extend_extend, ← List.map_append, ← List.map_append] at hadd'
  rw [ScriptsAlike, hs, ht]
  exact ⟨gs ++ gs', fs ++ fs', hadd, hadd', hmore⟩

end ScriptsAlike

/-- Two runs that are abreast read the same, up to names and lines. -/
theorem Abreast.script {n : Nat} {f : String → String} {s t : State} (h : Abreast n f s t) (hs : Proper s) :
    ScriptsAlike n f s t := by
  induction s, hs using State.inductRounds generalizing t with
  | ended s hs hend =>
    rw [ScriptsAlike, State.script_end hend, State.script_end (h.current.trans hend)]
    exact ⟨[], [], by simp, by simp, .nil⟩
  | separator s hs hsep ih =>
    have ht := h.proper hs
    obtain ⟨hrel, hpassed⟩ := h.pass
    exact (ih hrel).of_rest (State.script_separator hs hsep) (State.script_separator ht (h.current.trans hsep))
      (State.pass_leaves hs).1 (State.pass_leaves ht).1 hpassed
  | stored s u hs hend hsep hc ih =>
    have ht := h.proper hs
    cases Simulation.constructs (S := abreast n f) h h.current hend with
    | @stored gs fs u' v' hp hq hrel hu hv =>
      rw [hc] at hp
      cases hp
      refine (ih (hrel.extend gs fs _ _)).of_stored gs fs (State.script_stored hs hend hsep hc)
        (State.script_stored ht (h.current ▸ hend) (h.current ▸ hsep) hq) ?_ ?_
      · rw [← hu]
      · rw [← hv]
        rfl
    | failed hp =>
      rw [hc] at hp
      cases hp
    | beyond hp => exact absurd hp (not_beyond_zero _)
  | failed s d u hs hend hsep hc ih =>
    have ht := h.proper hs
    have hend' : t.current ≠ .endOfInput := h.current ▸ hend
    cases Simulation.constructs (S := abreast n f) h h.current hend with
    | stored hp =>
      rw [hc] at hp
      cases hp
    | failed hp hq herr hrel =>
      rw [hc] at hp
      cases hp
      obtain ⟨hrel', hpassed⟩ := (hrel.note _ _).pass
      exact (ih hrel').of_rest (State.script_failed hs hend hsep hc)
        (State.script_failed ht hend' (h.current ▸ hsep) hq) (State.failed_leaves hc hend hs).2.1
        (State.failed_leaves hq hend' ht).2.1 (.cons herr hpassed)
    | beyond hp => exact absurd hp (not_beyond_zero _)

/-- Two aligned runs in front of a separator read the same, wherever the separator stands. -/
theorem Aligned.script {n : Nat} {f : String → String} {s t : State} (h : Aligned n f s t) (hs : Proper s)
    (hsep : s.current = .statementEnd) : ScriptsAlike n f s t := by
  have ht := h.proper hs
  obtain ⟨hrel, hpassed⟩ := h.pass
  exact (hrel.script (State.pass_leaves hs).2.1).of_rest (State.script_separator hs hsep)
    (State.script_separator ht (h.current.trans hsep)) (State.pass_leaves hs).1 (State.pass_leaves ht).1 hpassed

/-- The same diagnostic, a number of lines further down. -/
def Diagnostic.down (n : Nat) (d : Diagnostic) : Diagnostic := { d with place := d.place.down n }

/-- Under the same names a diagnostic only moves. -/
theorem Diagnostic.Moved.eq_down {n : Nat} {d e : Diagnostic} (h : d.Moved n id e) : e = d.down n := by
  obtain ⟨cause, place⟩ := d
  obtain ⟨cause', place'⟩ := e
  obtain ⟨rfl, hcause⟩ := h
  cases hcause <;> rfl

/-- Where no name changes, moved diagnostics are the same ones further down. -/
theorem Diagnostic.Moved.eq_map_down {n : Nat} {ds es : List Diagnostic} (h : List.Forall₂ (Diagnostic.Moved n id) ds es) :
    es = ds.map (Diagnostic.down n) := by
  induction h with
  | nil => rfl
  | cons hd _ ih => rw [hd.eq_down, ih, List.map_cons]

/-- Of several separators in a row a script leaves the last. -/
theorem State.script_separators {s : State} (hs : Proper s) (hcurrent : s.current = .statementEnd) {lead rest : List (Lexed × Place)}
    (hlead : ∀ x ∈ lead, x.1 = .token .statementEnd) (hfaces : s.stream.faces = lead ++ rest) :
    ∃ s', Proper s' ∧ s'.current = .statementEnd ∧ s'.stream.faces = rest ∧ s'.stream.finish = s.stream.finish ∧
      s'.workspace = s.workspace ∧ s.script = s'.script := by
  induction lead generalizing s with
  | nil => exact ⟨s, hs, hcurrent, hfaces, rfl, rfl, rfl⟩
  | cons x lead ih =>
    obtain ⟨i, is, hi, hlexed, _, htail⟩ := items_of_faces hfaces
    have hadvance := advance_token hi (hlexed.trans (hlead x List.mem_cons_self))
    obtain ⟨s', hs', hcurrent', hfaces', hfinish, hworkspace, hscript⟩ :=
      ih (hs.advance hadvance) rfl (fun y hy => hlead y (List.mem_cons_of_mem _ hy)) htail
    refine ⟨s', hs', hcurrent', hfaces', hfinish, hworkspace, ?_⟩
    rw [script_separator hs hcurrent, pass_of_ok hadvance]
    exact hscript

/-- A run that goes on like the script over a source reads the source, further down. -/
theorem ScriptsAlike.read {n : Nat} {s u : State} (h : ScriptsAlike n id s u) (hw : s.workspace = u.workspace) {source : String}
    (hscript : (State.start source u.workspace).script = s.script) :
    u.script.1.workspace = (u.workspace.read source).workspace ∧
      u.script.2 = (u.workspace.read source).diagnostics.map (Diagnostic.down n) := by
  obtain ⟨gs, fs, hadd, hadd', hreport⟩ := h
  obtain ⟨hread, hread'⟩ := u.workspace.read_eq_script source
  rw [hread, hread', hscript]
  refine ⟨?_, Diagnostic.Moved.eq_map_down hreport⟩
  rw [hadd, hadd', hw, Function.map_renamed_id, Function.map_renamed_id]

/-- In front of a separator and the items of a source further down a run reads the source. The separators that the source begins with
do not count. -/
theorem State.script_of_faces {u : State} (hcurrent : u.current = .statementEnd) {source : String} {n : Nat}
    {lead rest : List (Lexed × Place)} (hlead : ∀ x ∈ lead, x.1 = .token .statementEnd)
    (hsource : (TokenStream.ofSource source).faces = lead ++ rest) (hfaces : u.stream.faces = rest.map (faceDown n))
    (hfinish : u.stream.finish.place = (TokenStream.ofSource source).finish.place.down n) :
    u.script.1.workspace = (u.workspace.read source).workspace ∧
      u.script.2 = (u.workspace.read source).diagnostics.map (Diagnostic.down n) := by
  obtain ⟨s, hs, hcurrent', hfaces', hfinish', hworkspace, hscript⟩ :=
    script_separators (.start source u.workspace) rfl hlead hsource
  have hw : s.workspace = u.workspace := hworkspace
  have haligned : Aligned n id s u := by
    refine ⟨hcurrent.trans hcurrent'.symm, by rw [hfaces, hfaces'], ?_, fun name => by rw [hw]; rfl, by rw [hw], by rw [hw]⟩
    rw [hfinish, hfinish']
    rfl
  exact (haligned.script hs hcurrent').read hw hscript

/-- What has been stored before does not matter for what a source adds. -/
theorem Workspace.read_extend (w : Workspace) (gs fs : List Function) (source : String) :
    ∃ gs' fs', (w.read source).workspace = w.extend gs' fs' ∧
      ((w.extend gs fs).read source).workspace = (w.extend gs fs).extend gs' fs' ∧
      ((w.extend gs fs).read source).diagnostics = (w.read source).diagnostics := by
  have habreast : Abreast 0 id (State.start source w) (State.start source (w.extend gs fs)) :=
    ⟨⟨rfl, (List.map_id _).symm, rfl, fun name => rfl, rfl, rfl⟩, rfl⟩
  obtain ⟨gs', fs', hadd, hadd', hreport⟩ := habreast.script (.start source w)
  rw [Function.map_renamed_id, Function.map_renamed_id] at hadd'
  exact ⟨gs', fs', hadd, hadd', (Diagnostic.Moved.eq_map_down hreport).trans (List.map_id _)⟩

/-- Reading under a table of external names adds what reading without one adds, with every name of a variable or callee replaced
once, and reports the same: only the name in the message about a declaration without a value is another. -/
theorem Workspace.read_renamed (w : Workspace) (table : Externals) (source : String) :
    let plain : Workspace := { w with externals := .empty }
    let mapped : Workspace := { w with externals := table }
    ∃ gs fs, (plain.read source).workspace = plain.extend gs fs ∧
      (mapped.read source).workspace = mapped.extend (gs.map (.renamed table.resolve)) (fs.map (.renamed table.resolve)) ∧
      List.Forall₂ (fun d e => e.place = d.place ∧ Cause.Renamed table.resolve d.cause e.cause)
        (plain.read source).diagnostics (mapped.read source).diagnostics := by
  intro plain mapped
  have habreast : Abreast 0 table.resolve (State.start source plain) (State.start source mapped) :=
    ⟨⟨rfl, (List.map_id _).symm, rfl, fun name => rfl, rfl, rfl⟩, rfl⟩
  obtain ⟨gs, fs, hadd, hadd', hreport⟩ := habreast.script (.start source plain)
  exact ⟨gs, fs, hadd, hadd', hreport.imp fun d e h => ⟨h.place, h.cause⟩⟩

end Offside
