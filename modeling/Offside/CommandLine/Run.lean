import Offside.Compile
import Offside.CommandLine.Arguments
import Offside.CommandLine.FileSystem

/-!
# Running a command

The command reads a script, compiles it, and writes the program to a file or to the standard output. Diagnostics go to the standard
error and do not make the command fail; a file that cannot be read or written does.
-/

namespace Offside.CommandLine

/-- What a command leaves behind, files aside. -/
structure Outcome where
  exitCode : Nat
  stdout : String := ""
  stderr : String := ""
  /-- What happened, as far as the caller asked to be told. -/
  log : List Event := []

/-- The line that names the version. -/
def versionLine : String := "jspy 0.1.0\n"

/-- Whether an event is told to a caller who asked for detail `verbosity` times. -/
def tells (verbosity : Nat) (event : Event) : Bool :=
  match verbosity with
  | 0 => false
  | 1 => event.level != .debug
  | _ => true

/-- The line for a script that cannot be read. -/
def unreadable (path : String) : String :=
  s!"Failed to read the input file '{path}'. Perhaps this file does not exist?\n"

/-- The line for a program that cannot be written. -/
def unwritable (path : String) (failure : FileFailure) : String :=
  "Failed to write the output file '" ++ path ++ "': " ++ failure.message ++ "\n"

/-- Compiles the script that an invocation asks for. -/
def Invocation.run {m : Type → Type} [Monad m] (files : FileSystem m) (i : Invocation) : m Outcome := do
  match ← files.read i.input with
  | none => return { exitCode := 1, stderr := unreadable i.input }
  | some source =>
    let options : Options := { indentWidth := i.indentWidth }
    let reading := (Workspace.new .hostDefaults options).read source
    let code := reading.workspace.render options
    let messages := String.join (reading.diagnostics.map fun d => d.message ++ "\n")
    let log := reading.events.filter (tells i.verbosity)
    match i.output with
    | none => return { exitCode := 0, stdout := code, stderr := messages, log }
    | some path =>
      match ← files.write path code with
      | .ok _ =>
        return { exitCode := 0, stderr := messages, log := log ++ [Event.written path].filter (tells i.verbosity) }
      | .error failure => return { exitCode := 1, stderr := messages ++ unwritable path failure, log }

/-- Runs the command with the given arguments. Arguments that make no sense are answered by the exit code alone. -/
def run {m : Type → Type} [Monad m] (files : FileSystem m) (arguments : List String) : m Outcome :=
  match Invocation.ofArguments arguments with
  | .error .usage => return { exitCode := 2 }
  | .error .version => return { exitCode := 0, stdout := versionLine }
  | .ok invocation => invocation.run files

end Offside.CommandLine
