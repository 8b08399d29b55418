import Offside.Proofs.Grammar.Transport
import Offside.Proofs.Image
import Offside.Session.Recorder

/-!
# What a session remembers

A session reads one source after another into its workspace, and its host may refuse any of the programs. What a source adds is the
same as if it were read alone: it depends on the names that the workspace resolves and on no source before it. So the program for all
that has been read is put together from the programs for the single sources.

Main statement: the program that the host is given is the expressions outside functions of all sources so far, an empty line, and the
functions of all sources so far, whatever the host did with the programs before.
-/

namespace Offside

namespace Workspace

/-- A workspace between two sources, with the names that reading depends on. -/
structure Between (table : Externals) (name : String) (w : Workspace) : Prop where
  externals : w.externals = table
  depth : w.depth = 0
  globalName : w.globalName = name

variable {table : Externals} {name : String} {w : Workspace}

namespace Between

/-- A new workspace is one between two sources. -/
theorem new (table : Externals) (options : Options) : Between table options.globalName (.new table options) := ⟨rfl, rfl, rfl⟩

/-- Storing changes no name that reading depends on. -/
theorem extend (h : Between table name w) (gs fs : List Function) : Between table name (w.extend gs fs) :=
  ⟨h.externals, h.depth, h.globalName⟩

/-- A workspace that forgets what it read is one between two sources. -/
theorem clear (h : Between table name w) : Between table name w.clear := ⟨h.externals, rfl, h.globalName⟩

/-- Between two sources the table of external names may be replaced. -/
theorem replace (h : Between table name w) (other : Externals) : Between other name { w with externals := other } :=
  ⟨rfl, h.depth, h.globalName⟩

/-- Two workspaces between two sources are read into alike, whatever they hold. -/
theorem abreast {v : Workspace} (hv : Between table name v) (hw : Between table name w) (source : String) :
    Abreast 0 id (State.start source v) (State.start source w) := by
  have hresolve : ∀ n, w.externals.resolve n = v.externals.resolve n := by
    intro n
    rw [hw.externals, hv.externals]
  exact ⟨⟨rfl, (List.map_id _).symm, rfl, hresolve, hw.depth.trans hv.depth.symm, hw.globalName.trans hv.globalName.symm⟩, rfl⟩

end Between

/-- A workspace keeps what it holds, and a source adds to it what it adds to a workspace that holds nothing. -/
theorem Between.read (h : Between table name w) {options : Options} (hname : options.globalName = name) (source : String) :
    let alone := (Workspace.new table options).read source
    (w.read source).workspace = w.extend alone.workspace.globals alone.workspace.functions ∧
      (w.read source).diagnostics = alone.diagnostics := by
  intro alone
  subst hname
  obtain ⟨gs, fs, hadd, hadd', hreport⟩ := ((Between.new table options).abreast h source).script (.start source _)
  rw [Function.map_renamed_id, Function.map_renamed_id] at hadd'
  have hglobals : alone.workspace.globals = gs := congrArg Workspace.globals hadd
  have hfunctions : alone.workspace.functions = fs := congrArg Workspace.functions hadd
  refine ⟨?_, ?_⟩
  · rw [hglobals, hfunctions]
    exact hadd'
  · have hsame := Diagnostic.Moved.eq_map_down hreport
    have hid : Diagnostic.down 0 = id := rfl
    rw [hid, List.map_id] at hsame
    exact hsame

/-- Whatever is read or forgotten, a workspace is again one between two sources. -/
theorem Between.after (h : Between table name w) (calls : List Call) : Between table name (w.after calls) := by
  induction calls generalizing w with
  | nil => exact h
  | cons call calls ih =>
    cases call with
    | read source =>
      let options : Options := { globalName := name }
      have hname : options.globalName = name := rfl
      refine ih ?_
      rw [(h.read hname source).1]
      exact h.extend _ _
    | clear => exact ih h.clear

end Workspace

/-! ## The text of a program -/

/-- The text of lines is that of each part in turn. -/
theorem Line.renderAll_append (options : Options) (ls ms : List Line) :
    renderAll options (ls ++ ms) = renderAll options ls ++ renderAll options ms := by
  simp [renderAll]

namespace Workspace

/-- The text of the expressions outside functions. -/
def globalsText (options : Options) (w : Workspace) : String := Line.renderAll options (w.globalLines options)

/-- The text of the functions. -/
def functionsText (options : Options) (w : Workspace) : String := Line.renderAll options (w.functionLines options)

/-- A program is the text of the expressions, an empty line, and the text of the functions. -/
theorem render_eq_texts (options : Options) (w : Workspace) :
    w.render options = w.globalsText options ++ "\n" ++ w.functionsText options := by
  have hempty : Line.renderAll options [Line.empty] = "\n" := by
    simp [Line.renderAll, Line.render, Line.empty]
  unfold render globalsText functionsText
  rw [← List.singleton_append, ← List.append_assoc, Line.renderAll_append, Line.renderAll_append, hempty]

/-- The lines that the parts of a list take one after another make up the texts of the parts. -/
theorem renderAll_flatMap {α : Type} (options : Options) (lines : α → List Line) (parts : List α) :
    Line.renderAll options (parts.flatMap lines) = String.join (parts.map fun part => Line.renderAll options (lines part)) := by
  induction parts with
  | nil => rfl
  | cons part parts ih => rw [List.flatMap_cons, Line.renderAll_append, ih, List.map_cons, String.join_cons]

/-- The program for all that several workspaces hold is put together from the texts of each. -/
theorem render_gathered (options : Options) {w : Workspace} {parts : List Workspace}
    (hglobals : w.globals = parts.flatMap Workspace.globals) (hfunctions : w.functions = parts.flatMap Workspace.functions) :
    w.render options = String.join (parts.map (globalsText options)) ++ "\n" ++ String.join (parts.map (functionsText options)) := by
  have hg : w.globalLines options = parts.flatMap (globalLines options) := by
    unfold globalLines
    rw [hglobals, List.flatMap_assoc]
  have hf : w.functionLines options = parts.flatMap (functionLines options) := by
    unfold functionLines
    rw [hfunctions, List.flatMap_assoc]
  rw [render_eq_texts]
  unfold globalsText functionsText
  rw [hg, hf, renderAll_flatMap, renderAll_flatMap]

end Workspace

/-! ## Runs of a session -/

namespace Session

-- what reading leads to counts from here on, not how it gets there
attribute [local irreducible] Workspace.read

variable {σ ν ε : Type}

/-- What is done with a session whose host has states in `σ` and keeps values in `ν`. -/
inductive Action (σ ν : Type) where
  | eval (source : String)
  | get (name : String)
  | set (name : String) (value : ν)
  | setAll (values : List (String × ν))
  /-- The host is changed from outside. -/
  | change (f : σ → σ)

/-- The source that an action evaluates. -/
def Action.source? : Action σ ν → Option String
  | eval source => some source
  | _ => none

/-- The session behind an action. Looking a value up leaves it as it is. -/
def perform [Host σ ν ε] (s : Session σ) : Action σ ν → Session σ
  | .eval source => (s.eval source).session
  | .get _ => s
  | .set name value => s.set name value
  | .setAll values => s.setAll values
  | .change f => { s with host := f s.host }

/-- The session behind a row of actions. -/
def run [Host σ ν ε] (s : Session σ) (actions : List (Action σ ν)) : Session σ := actions.foldl perform s

/-- A source compiled on its own, with the names that every host knows. -/
def alone (options : Options) (source : String) : Compiled × Workspace := (Workspace.new .hostDefaults options).compile options source

/-- The program for sources that are read one after another. -/
def programOf (options : Options) (sources : List String) : String :=
  String.join (sources.map fun source => (alone options source).2.globalsText options) ++ "\n" ++
    String.join (sources.map fun source => (alone options source).2.functionsText options)

/-- The workspace of a session holds what the sources so far hold, and the options are those it began with. -/
structure Gathers (options : Options) (sources : List String) (s : Session σ) : Prop where
  between : s.workspace.Between .hostDefaults options.globalName
  globals : s.workspace.globals = sources.flatMap fun source => (alone options source).2.globals
  functions : s.workspace.functions = sources.flatMap fun source => (alone options source).2.functions
  options : s.options = options

namespace Gathers

variable {options : Options} {sources : List String} {s : Session σ}

/-- A session begins with no source. -/
theorem new (host : σ) (options : Options) : Gathers options [] (.new host options) := ⟨.new _ _, rfl, rfl, rfl⟩

/-- Whatever is done to the host, the session gathers the same. -/
theorem congr {t : Session σ} (h : Gathers options sources s) (hworkspace : t.workspace = s.workspace)
    (hoptions : t.options = s.options) : Gathers options sources t := by
  refine ⟨?_, ?_, ?_, hoptions.trans h.options⟩
  · rw [hworkspace]
    exact h.between
  · rw [hworkspace]
    exact h.globals
  · rw [hworkspace]
    exact h.functions

/-- Reading a source adds to the workspace what the source holds on its own. -/
theorem read (h : Gathers options sources s) (source : String) {t : Session σ}
    (hworkspace : t.workspace = (s.workspace.read source).workspace) (hoptions : t.options = s.options) :
    Gathers options (sources ++ [source]) t := by
  have hread := (h.between.read rfl source).1
  refine ⟨?_, ?_, ?_, hoptions.trans h.options⟩
  · rw [hworkspace, hread]
    exact h.between.extend _ _
  · rw [hworkspace, hread, List.flatMap_append, List.flatMap_singleton, ← h.globals]
    rfl
  · rw [hworkspace, hread, List.flatMap_append, List.flatMap_singleton, ← h.functions]
    rfl

/-- The program for the workspace is the one for its sources. -/
theorem render (h : Gathers options sources s) : s.workspace.render s.options = programOf options sources := by
  have hglobals := h.globals
  have hfunctions := h.functions
  rw [← List.flatMap_map (fun source => (alone options source).2) Workspace.globals] at hglobals
  rw [← List.flatMap_map (fun source => (alone options source).2) Workspace.functions] at hfunctions
  rw [h.options, Workspace.render_gathered options hglobals hfunctions, List.map_map, List.map_map]
  rfl

variable [Host σ ν ε]

/-- Evaluating a source reads it, whether the host accepts the program or not. -/
theorem eval (h : Gathers options sources s) (source : String) : Gathers options (sources ++ [source]) (s.eval source).session := by
  unfold Session.eval
  dsimp only
  split
  · exact h.read source rfl rfl
  · exact h.read source rfl rfl

/-- Setting values in the host adds no source. -/
theorem setAll (h : Gathers options sources s) (values : List (String × ν)) : Gathers options sources (s.setAll values) := by
  unfold Session.setAll
  induction values generalizing s with
  | nil => exact h
  | cons entry values ih => exact ih (h.congr rfl rfl)

/-- An action adds the source that it evaluates, if there is one. -/
theorem perform (h : Gathers options sources s) (action : Action σ ν) :
    Gathers options (sources ++ action.source?.toList) (s.perform action) := by
  have hnone : ∀ {t : Session σ}, Gathers options sources t → Gathers options (sources ++ []) t := by
    intro t ht
    rwa [List.append_nil]
  cases action with
  | eval source => exact h.eval source
  | get name => exact hnone h
  | set name value => exact hnone (h.congr rfl rfl)
  | setAll values => exact hnone (h.setAll values)
  | change f => exact hnone (h.congr rfl rfl)

/-- A row of actions adds the sources that it evaluates, in order. The induction is on the actions. -/
theorem run (h : Gathers options sources s) (actions : List (Action σ ν)) :
    Gathers options (sources ++ actions.filterMap Action.source?) (s.run actions) := by
  induction actions generalizing s sources with
  | nil => simpa [Session.run] using h
  | cons action actions ih =>
    have hsources : action.source?.toList ++ actions.filterMap Action.source? = (action :: actions).filterMap Action.source? := by
      cases action <;> rfl
    have hrest := ih (h.perform action)
    rw [List.append_assoc, hsources] at hrest
    exact hrest

end Gathers

/-- Evaluating a source hands the program for the workspace to the host, and nothing else decides on the outcome. -/
theorem eval_hands [Host σ ν ε] (s : Session σ) (source : String) {program : String}
    (hprogram : (s.workspace.read source).workspace.render s.options = program) :
    (s.eval source).events.getLast? = some (.execution program) ∧
      match Host.execute program s.host with
      | .ok _ after => (s.eval source).outcome = .ok (s.workspace.read source).diagnostics ∧ (s.eval source).session.host = after
      | .error failure after => (s.eval source).outcome = .error failure ∧ (s.eval source).session.host = after := by
  subst hprogram
  unfold Session.eval
  dsimp only
  cases Host.execute ((s.workspace.read source).workspace.render s.options) s.host with
  | ok _ after => exact ⟨List.getLast?_concat, rfl, rfl⟩
  | error failure after => exact ⟨List.getLast?_concat, rfl, rfl⟩

/-- Sessions are put together from their sources. Whatever has been done with a session and whatever its host has accepted or refused,
the next program is the expressions outside functions of all sources so far, an empty line, and the functions of all sources so far,
each as in the program for that source alone, and what is reported is what is wrong with the source alone. The same holds of every
workspace: what a source adds and reports does not depend on what was read or forgotten before, under whatever table. -/
theorem eval_after_run [Host σ ν ε] (host : σ) (options : Options) :
    (∀ source, (alone options source).1.code =
      (alone options source).2.globalsText options ++ "\n" ++ (alone options source).2.functionsText options) ∧
    (∀ (actions : List (Action σ ν)) (source : String),
      let s := (new host options).run actions
      let evaluation := s.eval source
      let program := programOf options (actions.filterMap Action.source? ++ [source])
      evaluation.events.getLast? = some (.execution program) ∧
        match Host.execute program s.host with
        | .ok _ after => evaluation.outcome = .ok (alone options source).1.diagnostics ∧ evaluation.session.host = after
        | .error failure after => evaluation.outcome = .error failure ∧ evaluation.session.host = after) ∧
    ∀ (earlier table : Externals) (calls : List Workspace.Call) (source : String),
      let w : Workspace := { (Workspace.new earlier options).after calls with externals := table }
      let fresh := (Workspace.new table options).read source
      (w.read source).workspace = w.extend fresh.workspace.globals fresh.workspace.functions ∧
        (w.read source).diagnostics = fresh.diagnostics := by
  refine ⟨fun source => Workspace.render_eq_texts options _, fun actions source => ?_, fun earlier table calls source => ?_⟩
  · intro s evaluation program
    have hs : Gathers options (actions.filterMap Action.source?) s := (Gathers.new host options).run actions
    have hreport : (s.workspace.read source).diagnostics = (alone options source).1.diagnostics := (hs.between.read rfl source).2
    -- the same session, whatever its host is, renders the program for all sources
    have hprogram : (s.workspace.read source).workspace.render s.options = program :=
      (hs.read source (t := { s with workspace := (s.workspace.read source).workspace }) rfl rfl).render
    rw [← hreport]
    exact s.eval_hands source hprogram
  · exact (((Workspace.Between.new earlier options).after calls).replace table).read rfl source

/-- The function of a program that was refused is in the next one. -/
example :
    let refuse (on : Bool) : Action Recorder String := .change fun r => { r with rejecting := on }
    let s := (new ({} : Recorder) {}).run [.eval "a = 1", refuse true, .eval "function f() { }; b", refuse false, .eval "c ="]
    s.host.programs = ["a = 1.0\n\n", "a = 1.0\nb\n\ndef f():\n    pass\n\n"] := by decide +kernel

end Session

end Offside
