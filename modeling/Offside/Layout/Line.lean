import Offside.Options

/-!
# Lines

The output is a Python program: a list of lines, each at a level of indentation.
-/

namespace Offside

/-- A line of output: its level of indentation, and its text. -/
structure Line where
  level : Nat
  text : String
deriving DecidableEq, Repr

namespace Line

/-- The line without indentation and text. -/
def empty : Line := { level := 0, text := "" }

/-- A line with its indentation and its terminator. -/
def render (options : Options) (l : Line) : String := options.indentation l.level ++ l.text ++ "\n"

/-- The text of a list of lines. -/
def renderAll (options : Options) (lines : List Line) : String := String.join (lines.map (render options))

end Line

end Offside
