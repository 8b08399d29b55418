import Offside.Source.Place

/-!
# Read positions

A position divides a source into the text read and the text to come. It only moves forward, and counts the bytes and the lines
it has passed. A line feed ends a line, and so does a carriage return that no line feed follows.
-/

namespace Offside

/-- A read position. -/
structure Position where
  /-- The characters read, the last one first. -/
  behind : List Char
  /-- The characters to come. -/
  ahead : List Char
  /-- The number of bytes read, in UTF-8. -/
  offset : Nat
  /-- The number of the line being read, counted from one. -/
  line : Nat
deriving DecidableEq, Repr

namespace Position

/-- The start of a source. -/
def start (source : String) : Position :=
  { behind := [], ahead := source.toList, offset := 0, line := 1 }

/-- The source a position belongs to. -/
def source (p : Position) : List Char := p.behind.reverse ++ p.ahead

/-- The next character, which is not read. -/
def peek (p : Position) : Option Char := p.ahead.head?

/-- Whether a line ends with a character that stands before the given ones. -/
def endsLine (c : Char) (after : List Char) : Bool :=
  c == '\n' || (c == '\r' && after.head? != some '\n')

/-- The position behind the next character; the end of the source is left where it is. -/
def next (p : Position) : Position :=
  match p.ahead with
  | [] => p
  | c :: after =>
    { behind := c :: p.behind, ahead := after, offset := p.offset + c.utf8Size,
      line := if endsLine c after then p.line + 1 else p.line }

/-- The position `n` characters further on, or the end of the source. -/
def skip : Nat → Position → Position
  | 0, p => p
  | n + 1, p => skip n p.next

/-- The first position at or behind a byte offset that is reached in at most `n` characters. -/
def approach (offset : Nat) : Nat → Position → Position
  | 0, p => p
  | n + 1, p => if p.offset < offset then approach offset n p.next else p

/-- Moves on to a byte offset. An offset inside a character leads behind that character, one beyond the end to the end, and one
that has been passed nowhere. -/
def advanceTo (p : Position) (offset : Nat) : Position := approach offset p.ahead.length p

/-- The text around the position, up to the nearest line terminator on each side. -/
def lineText (p : Position) : String :=
  String.ofList ((p.behind.takeWhile fun c => !isTerminator c).reverse ++ p.ahead.takeWhile fun c => !isTerminator c)

/-- The line that a message about this position points at. -/
def place (p : Position) : Place := { line := p.line, text := p.lineText }

end Position

end Offside
