import Offside.Compile

/-!
# Sessions

A session reads one source after another into one workspace, and after each of them hands the program for all that has been read to
a host. A host may refuse a program; what was read stays in the workspace.
-/

namespace Offside

/-- What a host with state `σ` can do: run programs, which may fail, and keep values under names. -/
class Host (σ : Type) (ν ε : outParam Type) where
  /-- Runs a program. -/
  execute : String → σ → EStateM.Result ε σ Unit
  /-- The value kept under a name. -/
  get? : σ → String → Option ν
  /-- Keeps a value under a name. -/
  set : σ → String → ν → σ

/-- A workspace and the host that runs its programs. -/
structure Session (σ : Type) where
  workspace : Workspace
  options : Options
  host : σ

namespace Session

variable {σ ν ε : Type}

/-- A session in which nothing has been read. -/
def new (host : σ) (options : Options) : Session σ :=
  { workspace := .new .hostDefaults options, options, host }

/-- The value that the host keeps under a name. -/
def get? [Host σ ν ε] (s : Session σ) (name : String) : Option ν := Host.get? s.host name

/-- Has the host keep a value under a name. -/
def set [Host σ ν ε] (s : Session σ) (name : String) (value : ν) : Session σ :=
  { s with host := Host.set s.host name value }

/-- Has the host keep values under names, one after the other. -/
def setAll [Host σ ν ε] (s : Session σ) (values : List (String × ν)) : Session σ :=
  values.foldl (fun s entry => s.set entry.1 entry.2) s

end Session

/-- What evaluating a source leads to: its diagnostics, or the failure of the host, and in both cases the session that goes on and
what happened. -/
structure Evaluation (σ ε : Type) where
  outcome : Except ε (List Diagnostic)
  session : Session σ
  events : List Event

/-- Reads a source and hands the program for all that has been read to the host. -/
def Session.eval {σ ν ε : Type} [Host σ ν ε] (s : Session σ) (source : String) : Evaluation σ ε :=
  let reading := s.workspace.read source
  let program := reading.workspace.render s.options
  let events := reading.events ++ [.execution program]
  match Host.execute program s.host with
  | .ok _ host =>
    { outcome := .ok reading.diagnostics, session := { s with workspace := reading.workspace, host }, events }
  | .error failure host =>
    { outcome := .error failure, session := { s with workspace := reading.workspace, host }, events }

end Offside
