import Offside.Grammar.Expression

/-!
# Scripts

A script is a list of functions and expressions with separators between them. A construct that fails is given up: its diagnostic is
kept, the lookahead is passed over, and reading goes on with what follows.
-/

namespace Offside

namespace Grammar

open Production

/-- The name and the parameters of a function. -/
def prototype : Production Prototype := do
  let name ← identifier "a function name"
  expectPunct '(' "'(' after the function name"
  let params ← commaSeparated (identifier "a parameter name")
  return { name, params }

/-- A function; the lookahead is its first word, which is not looked at. -/
def function : Production Function := do
  advance
  let prototype ← prototype
  skipStatementEnds
  if !(← current).isPunct '{' then
    unexpected r"'{' to open the function body"
  else
    let body ← block
    note (.function prototype)
    return { prototype, body }

/-- An expression outside functions. -/
def topLevel : Production Function := do
  let body ← expression
  return { prototype := (← get).workspace.globalPrototype, body }

end Grammar

namespace State

/-- Notes a diagnostic as an event. -/
def report (s : State) (d : Diagnostic) : State := s.note (.problem d)

/-- Passes over the lookahead, and over the malformed number literals behind it, at most `n` of them. -/
def passUpTo : Nat → State → State × List Diagnostic
  | 0, s => (s, [])
  | n + 1, s =>
    match Production.advance s with
    | .ok _ s => (s, [])
    | .error d s =>
      let (s, more) := passUpTo n (s.report d)
      (s, d :: more)

/-- Passes over the lookahead. The malformed number literals behind it are passed over too, with a diagnostic for each. -/
def pass (s : State) : State × List Diagnostic := passUpTo (s.stream.size + 1) s

/-- Reads one construct, and stores it if it succeeds. -/
def construct (s : State) : EStateM.Result Diagnostic State Unit :=
  if s.current = .keyword .function then
    match Grammar.function s with
    | .ok f s => .ok () { s with workspace := s.workspace.addFunction f }
    | .error d s => .error d s
  else
    match Grammar.topLevel s with
    | .ok f s => .ok () { s with workspace := s.workspace.addGlobal f }
    | .error d s => .error d s

/-- Reads constructs up to the end of the input, in at most `n` steps. -/
def scriptUpTo : Nat → State → State × List Diagnostic
  | 0, s => (s, [])
  | n + 1, s =>
    if s.current = .endOfInput then (s, [])
    else if s.current = .statementEnd then
      let (s, passed) := s.pass
      let (s, more) := scriptUpTo n s
      (s, passed ++ more)
    else
      match s.construct with
      | .ok _ s => scriptUpTo n s
      | .error d s =>
        let (s, passed) := (s.report d).pass
        let (s, more) := scriptUpTo n s
        (s, d :: passed ++ more)

/-- Reads constructs up to the end of the input. -/
def script (s : State) : State × List Diagnostic := scriptUpTo s.remaining s

end State

/-- What reading a source leads to: the workspace with what was read in it, what is wrong with the source, and what happened. -/
structure Reading where
  workspace : Workspace
  diagnostics : List Diagnostic
  events : List Event
deriving Repr

/-- Reads a source into a workspace. -/
def Workspace.read (w : Workspace) (source : String) : Reading :=
  let (s, diagnostics) := (State.start source w).script
  let finished := Event.finished s.workspace.globals.length s.workspace.functions.length diagnostics.length
  { workspace := s.workspace, diagnostics, events := (finished :: s.events).reverse }

end Offside
