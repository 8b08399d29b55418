/-!
# External names

A script may use names that the host knows under another, flat name, such as `Math.max`. The table of such names has at most one
entry for each name.
-/

namespace Offside

/-- Names and the flat names they stand for; a name occurs at most once on the left. -/
structure Externals where
  entries : List (String × String)
deriving DecidableEq, Repr, Inhabited

namespace Externals

/-- The table without entries. -/
def empty : Externals := ⟨[]⟩

/-- Adds an entry, in place of an earlier one for the same name. -/
def insert (e : Externals) (qualified flat : String) : Externals :=
  ⟨(qualified, flat) :: e.entries.filter fun entry => entry.1 != qualified⟩

/-- The table with the given entries; of several for one name the last one counts. -/
def ofList (entries : List (String × String)) : Externals :=
  entries.foldl (fun e entry => e.insert entry.1 entry.2) empty

/-- The names that every host knows. -/
def hostDefaults : Externals := ofList [("Math.max", "max"), ("Math.min", "min")]

/-- The flat name that a name stands for, or the name itself. -/
def resolve (e : Externals) (name : String) : String := (e.entries.lookup name).getD name

/-- The number of entries. -/
def size (e : Externals) : Nat := e.entries.length

/-- Whether the table has no entries. -/
def isEmpty (e : Externals) : Bool := e.entries.isEmpty

end Externals

end Offside
