import Offside.Binary64.Nearest
import Offside.Source.Place
import Offside.Text.Letter
import Offside.Text.Numeral
import Offside.Token.Basic

/-!
# Lexemes

The piece of source text that makes up a token. The first character decides which rule applies, and each rule takes the longest
piece it can:

* a name or keyword is a letter or `_`, followed by letters, numerals and `_`;
* a number is an ASCII digit, followed by ASCII digits and points;
* a separator is a run of line terminators and semicolons;
* a blank is a run of spaces, tabs, vertical tabs and form feeds;
* a comment runs from `//` to the end of the line;
* any other character stands for itself.
-/

namespace Offside

/-- What a lexeme stands for: a token, or a number literal without a value. -/
inductive Lexed where
  | token (t : Token)
  | malformed (literal : String)
deriving DecidableEq, Repr

/-- A piece of source text and what it stands for. -/
structure Lexeme where
  chars : List Char
  lexed : Lexed
deriving DecidableEq, Repr

namespace Lexeme

/-- Whether a name may begin with a character. -/
def startsName (c : Char) : Bool := c == '_' || Text.isLetter c

/-- Whether a name may go on with a character. -/
def continuesName (c : Char) : Bool := startsName c || Text.isNumeral c

/-- Whether a number literal may begin with a character. -/
def startsNumber (c : Char) : Bool := '0' ≤ c && c ≤ '9'

/-- Whether a number literal may go on with a character. -/
def continuesNumber (c : Char) : Bool := startsNumber c || c == '.'

/-- Whether a character separates statements. -/
def isSeparator (c : Char) : Bool := isTerminator c || c == ';'

/-- Whether a character is a blank between tokens. -/
def isBlank (c : Char) : Bool := c == ' ' || c == '\t' || c == '\x0b' || c == '\x0c'

/-- The value of a row of decimal digits. -/
def digitsValue (digits : List Char) : Nat :=
  digits.foldl (fun n c => 10 * n + (c.toNat - '0'.toNat)) 0

/-- The value of digits with at most one point among them, rounded to the nearest double. There is none with a second point, or
if the double would be infinite. -/
def numberValue? (literal : List Char) : Option Binary64 :=
  let whole := literal.takeWhile (· != '.')
  let fraction := (literal.dropWhile (· != '.')).drop 1
  if fraction.contains '.' then none
  else Binary64.ofQuotient? (digitsValue (whole ++ fraction)) (Nat.pow 10 fraction.length)

/-- A name or a keyword. -/
def ofWord (chars : List Char) : Lexeme :=
  let word := String.ofList chars
  { chars, lexed := .token ((Keyword.ofSpelling? word).elim (.identifier word) .keyword) }

/-- A number, or a literal without a value. -/
def ofNumber (chars : List Char) : Lexeme :=
  { chars, lexed := (numberValue? chars).elim (.malformed (String.ofList chars)) fun value => .token (.number value) }

/-- The longest lexeme at the start of the text made of `c` and the characters after it. -/
def first (c : Char) (after : List Char) : Lexeme :=
  if startsName c then ofWord (c :: after.takeWhile continuesName)
  else if startsNumber c then ofNumber (c :: after.takeWhile continuesNumber)
  else if isSeparator c then { chars := c :: after.takeWhile isSeparator, lexed := .token .statementEnd }
  else if isBlank c then { chars := c :: after.takeWhile isBlank, lexed := .token .blank }
  else if c == '/' && after.head? == some '/' then
    { chars := c :: after.takeWhile fun d => !isTerminator d, lexed := .token .comment }
  else { chars := [c], lexed := .token (.punct c) }

/-- Whether a lexeme only separates others and is dropped. -/
def isTrivia (l : Lexeme) : Bool :=
  match l.lexed with
  | .token t => t.isTrivia
  | .malformed _ => false

end Lexeme

end Offside
