import Offside.Binary64.Shortest

/-!
# Tokens

The words of the script language, a small relative of JavaScript: names, numbers, separators between statements, five keywords, and
single characters. Comments and blanks are tokens too, which the reader of a source drops.
-/

namespace Offside

/-- The reserved words. -/
inductive Keyword where
  | function
  | return_
  | var
  | if_
  | else_
deriving DecidableEq, Repr

namespace Keyword

/-- All reserved words. -/
def all : List Keyword := [function, return_, var, if_, else_]

/-- How a reserved word is written. -/
def spelling : Keyword → String
  | function => "function"
  | return_ => "return"
  | var => "var"
  | if_ => "if"
  | else_ => "else"

/-- The reserved word with a given spelling. -/
def ofSpelling? (word : String) : Option Keyword := all.find? fun k => k.spelling == word

end Keyword

/-- A token of a source. -/
inductive Token where
  | endOfInput
  | identifier (name : String)
  | number (value : Binary64)
  | statementEnd
  | keyword (word : Keyword)
  | comment
  | blank
  | punct (c : Char)
deriving DecidableEq, Repr, Inhabited

namespace Token

/-- How messages name a token. -/
def description : Token → String
  | endOfInput => "end of input"
  | identifier name => s!"identifier '{name}'"
  | number value => "number " ++ value.text
  | statementEnd => "end of statement"
  | keyword word => "'" ++ word.spelling ++ "'"
  | comment => "comment"
  | blank => "whitespace"
  | punct c => "'" ++ String.singleton c ++ "'"

/-- Whether a token is a given single character. -/
def isPunct (t : Token) (c : Char) : Bool := t == punct c

/-- Whether a token only separates others and is dropped. -/
def isTrivia : Token → Bool
  | comment | blank => true
  | _ => false

end Token

/-- A binary operator: its character, and how tightly it binds. -/
structure Operator where
  symbol : Char
  precedence : Nat
deriving DecidableEq, Repr

namespace Operator

/-- The binary operators, from the loosest to the tightest. All of them associate to the left. -/
def all : List Operator := [⟨'=', 2⟩, ⟨'<', 10⟩, ⟨'>', 10⟩, ⟨'+', 20⟩, ⟨'-', 20⟩, ⟨'*', 40⟩, ⟨'/', 40⟩]

/-- The binary operator that a token stands for. -/
def ofToken? : Token → Option Operator
  | .punct c => all.find? fun o => o.symbol == c
  | _ => none

end Operator

end Offside
