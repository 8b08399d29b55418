import Offside.CommandLine.Run

/-!
# The command

Runs the command on the files of the machine.
-/

namespace Offside.CommandLine

/-- The reason why a file could not be written. -/
def FileFailure.ofError : IO.Error → FileFailure
  | .noFileOrDirectory .. => .notFound
  | .invalidArgument _ 36 _ => .nameTooLong
  | .inappropriateType _ 21 _ => .isDirectory
  | .inappropriateType _ 20 _ => .notDirectory
  | failure => .other (toString failure)

/-- The files of the machine. -/
def machineFiles : FileSystem IO where
  read path := do
    try
      return String.fromUTF8? (← IO.FS.readBinFile path)
    catch _ =>
      return none
  write path text := do
    try
      IO.FS.writeFile path text
      return .ok ()
    catch failure =>
      return .error (.ofError failure)

end Offside.CommandLine

/-- Runs the command with the arguments of the process. -/
def main (arguments : List String) : IO UInt32 := do
  let outcome ← Offside.CommandLine.run Offside.CommandLine.machineFiles arguments
  for event in outcome.log do
    IO.eprintln event.entry
  IO.eprint outcome.stderr
  IO.print outcome.stdout
  return UInt32.ofNat outcome.exitCode
