import Offside.CommandLine.FileSystem
import Offside.CommandLine.Location

/-!
# Directories in memory

A directory with the files and directories in it, as a value. Commands run on it as they do on a disk: a path is followed part by
part, and a part leads on only from a directory that is there, also if it leads back by `..`.
-/

namespace Offside.CommandLine

/-- What stands at a location. -/
inductive Entry where
  | directory
  | file (content : ByteArray)

/-- A working directory: the locations that are known, and what stands there; of two entries for one location the first counts. -/
structure Directory where
  entries : List (Location × Entry)

namespace Directory

/-- The directory with the given entries; of two for one location the last one counts. -/
def ofList (entries : List (String × Entry)) : Directory :=
  ⟨(entries.map fun entry => ((Path.ofText entry.1).location, entry.2)).reverse⟩

/-- What stands at a location. A location is a directory also if only something below it is known. -/
def find? (d : Directory) (l : Location) : Option Entry :=
  match d.entries.find? fun entry => entry.1 == l with
  | some entry => some entry.2
  | none => if l.isAbove || d.entries.any fun entry => l.isAtOrAbove entry.1 then some .directory else none

/-- What stands at a location, or why nothing can. -/
def look (d : Directory) (l : Location) : Except FileFailure Entry :=
  if l.isTooLong then .error .nameTooLong
  else match d.find? l with
    | some entry => .ok entry
    | none => .error .notFound

/-- Follows parts of a path from a location. Every location that a part leads on from is a directory; the last location need not
be there. -/
def follow (d : Directory) (l : Location) : List String → Except FileFailure Location
  | [] => .ok l
  | part :: parts =>
    match d.look l with
    | .ok .directory => d.follow (l.enter part) parts
    | .ok (.file _) => .error .notDirectory
    | .error failure => .error failure

/-- The location that a path leads to. -/
def locate (d : Directory) (path : String) : Except FileFailure Location :=
  if path.isEmpty then .error .notFound
  else if Path.limit ≤ path.utf8ByteSize then .error .nameTooLong
  else d.follow (Path.ofText path).start (Path.ofText path).parts

/-- The text of a file; there is none if the path does not lead to a file, or to one that is not valid UTF-8. A path that ends in a
slash leads to no file. -/
def read (d : Directory) (path : String) : Option String :=
  match d.locate path with
  | .error _ => none
  | .ok l =>
    match d.look l with
    | .ok (.file content) => if (Path.ofText path).endsInSlash then none else String.fromUTF8? content
    | _ => none

/-- Writes a file, in place of an earlier one. A path that ends in a slash is taken for a directory, whether it is there or not. -/
def write (d : Directory) (path text : String) : Except FileFailure Directory :=
  match d.locate path with
  | .error failure => .error failure
  | .ok l =>
    if (Path.ofText path).endsInSlash then .error .isDirectory
    else match d.look l with
      | .ok .directory => .error .isDirectory
      | .ok (.file _) | .error .notFound => .ok ⟨(l, .file text.toUTF8) :: d.entries⟩
      | .error failure => .error failure

/-- Reading and writing in a directory that is kept as a state. -/
def fileSystem : FileSystem (StateM Directory) where
  read path := return (← get).read path
  write path text := do
    match (← get).write path text with
    | .ok d =>
      set d
      return .ok ()
    | .error failure => return .error failure

end Directory

end Offside.CommandLine
