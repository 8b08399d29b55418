/-!
# Places in a source

Messages point at a line of the source: its number, counted from one, and its text without the line terminator.
-/

namespace Offside

/-- A line of a source, by its number and its text. -/
structure Place where
  line : Nat
  text : String
deriving DecidableEq, Repr, Inhabited

/-- The characters that end a line. A carriage return and a line feed after it end one line together. -/
def isTerminator (c : Char) : Bool := c == '\n' || c == '\r'

end Offside
