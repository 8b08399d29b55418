import Offside.Grammar.Script
import Offside.Layout.Statement

/-!
# Compiling

A source is compiled by reading it into a workspace and writing the program for all that the workspace then holds. Code is produced
for whatever could be read, also if there are diagnostics.
-/

namespace Offside

/-- A program, and what is wrong with the source it was compiled from. -/
structure Compiled where
  code : String
  diagnostics : List Diagnostic
deriving DecidableEq, Repr

/-- Whether nothing is wrong with the source. -/
def Compiled.clean (c : Compiled) : Bool := c.diagnostics.isEmpty

/-- Reads a source into a workspace, and writes the program for all that it then holds. -/
def Workspace.compile (w : Workspace) (options : Options) (source : String) : Compiled × Workspace :=
  let reading := w.read source
  ({ code := reading.workspace.render options, diagnostics := reading.diagnostics }, reading.workspace)

/-- Compiles a source on its own, without external names. -/
def compile (source : String) : Compiled := ((Workspace.new .empty {}).compile {} source).1

end Offside
