import Offside.Source.Place
import Offside.Text.WhiteSpace

/-!
# Diagnostics

What is wrong with a source, and on which line. The wording of every message is here.
-/

namespace Offside

/-- What is wrong with a source. -/
inductive Cause where
  /-- A token, named as in `Token.description`, stands where something else was expected. -/
  | unexpectedToken (found expected : String)
  /-- The source ends where something was expected. -/
  | unexpectedEnd (expected : String)
  /-- A number literal has a second point, or its value is too large. -/
  | malformedNumber (literal : String)
  /-- A declaration does not give a value to a variable. -/
  | invalidDeclaration (detail : String)
deriving DecidableEq, Repr

/-- What is wrong, and the line it was found on. -/
structure Diagnostic where
  cause : Cause
  place : Place
deriving DecidableEq, Repr

/-- The wording of a cause. -/
def Cause.message : Cause → String
  | unexpectedToken found expected => s!"Unexpected token {found}, expected {expected}."
  | unexpectedEnd expected => s!"Unexpected end of input, expected {expected}."
  | malformedNumber literal => s!"Malformed number literal '{literal}'."
  | invalidDeclaration detail => s!"Invalid variable declaration: {detail}. Example: var x = 1"

/-- The whole message: the number of the line, the cause and, below it, the line itself without the white space around it. A line
that is all white space is not shown. -/
def Diagnostic.message (d : Diagnostic) : String :=
  let shown := Text.trim d.place.text
  "Error on line " ++ toString d.place.line ++ ": " ++ d.cause.message ++
    if shown.isEmpty then "" else "\n    " ++ shown

end Offside
