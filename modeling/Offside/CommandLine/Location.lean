/-!
# Locations

A location is a place in a tree of directories, seen from the directory a command runs in: a way up or a start at the top of the
tree, and then the names on the way down. Every place has one location.
-/

namespace Offside.CommandLine

/-- A place in a tree of directories. The steps are names on the way down, after any number of `..` on the way up from the working
directory, or after `/` for the top of the tree. -/
structure Location where
  steps : List String
deriving DecidableEq, Repr

namespace Location

/-- The directory a command runs in. -/
def working : Location := ⟨[]⟩

/-- The top of the tree. -/
def top : Location := ⟨["/"]⟩

/-- The directory above a location. There is none above the top of the tree. -/
def parent (l : Location) : Location :=
  match l.steps.getLast? with
  | none | some ".." => ⟨l.steps ++ [".."]⟩
  | some "/" => l
  | some _ => ⟨l.steps.dropLast⟩

/-- The location that one part of a path leads to. -/
def enter (l : Location) (part : String) : Location :=
  if part = "." then l else if part = ".." then l.parent else ⟨l.steps ++ [part]⟩

/-- Whether a location is the working directory, above it, or at the top of the tree. Such a location is always a directory. -/
def isAbove (l : Location) : Bool := l == top || l.steps.all (· == "..")

/-- The most bytes that a name may have. -/
def nameLimit : Nat := 255

/-- Whether the last name on the way is longer than a name may be. -/
def isTooLong (l : Location) : Bool := l.steps.getLast?.any fun name => nameLimit < name.utf8ByteSize

/-- Whether something is at or below a location. -/
def isAtOrAbove (l other : Location) : Bool := l.steps.isPrefixOf other.steps

end Location

/-- A path: where it starts, its parts, and whether it ends in a slash. Empty parts count for nothing. -/
structure Path where
  start : Location
  parts : List String
  endsInSlash : Bool
deriving DecidableEq, Repr

namespace Path

/-- The number of bytes from which on a path is too long. -/
def limit : Nat := 4096

/-- Reads a path from its text. -/
def ofText (text : String) : Path :=
  { start := if text.toList.head? = some '/' then .top else .working
    parts := (text.splitOn "/").filter fun part => part != ""
    endsInSlash := text.toList.getLast? = some '/' }

/-- The location that a path leads to if every part before the last one is a directory. -/
def location (p : Path) : Location := p.parts.foldl Location.enter p.start

end Path

end Offside.CommandLine
