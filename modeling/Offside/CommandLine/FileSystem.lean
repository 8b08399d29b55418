/-!
# Files

The files a command works on, as far as it needs them: a whole file is read, and a whole file is written.
-/

namespace Offside.CommandLine

/-- Why a path does not lead to a file, or the file cannot be written. -/
inductive FileFailure where
  | notFound
  | notDirectory
  | isDirectory
  | nameTooLong
  | other (reason : String)
deriving DecidableEq, Repr

/-- The wording of a failure. -/
def FileFailure.message : FileFailure → String
  | notFound => "No such file or directory (os error 2)"
  | notDirectory => "Not a directory (os error 20)"
  | isDirectory => "Is a directory (os error 21)"
  | nameTooLong => "File name too long (os error 36)"
  | other reason => reason

/-- How files are read and written. -/
structure FileSystem (m : Type → Type) where
  /-- The text of a file; there is none if the file cannot be read or is not valid UTF-8. -/
  read : String → m (Option String)
  /-- Writes a file, in place of an earlier one. -/
  write : String → String → m (Except FileFailure Unit)

end Offside.CommandLine
