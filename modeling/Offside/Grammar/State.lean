import Offside.Token.Stream
import Offside.Trace
import Offside.Workspace

/-!
# Reading with one token of lookahead

A production reads tokens from a stream. It looks at one token at a time, the lookahead, and it either yields a value or fails with
a diagnostic; the state it leaves counts in both cases, so that reading can go on behind a failure.

Loops and nested productions are bounded by `State.remaining`, the number of tokens that can still be read: every step that goes on
reads at least the lookahead.
-/

namespace Offside

/-- The state of reading a source. -/
structure State where
  /-- The items behind the lookahead. -/
  stream : TokenStream
  /-- The lookahead. -/
  current : Token
  /-- The position that the item read last begins at. -/
  position : Position
  workspace : Workspace
  /-- What has happened, the latest event first. -/
  events : List Event
deriving Repr

namespace State

/-- The state before anything of a source is read: the lookahead is a separator on the first line. -/
def start (source : String) (workspace : Workspace) : State :=
  { stream := .ofSource source, current := .statementEnd, position := .start source, workspace, events := [] }

/-- The number of tokens that can be read before the end of the input, the lookahead included. -/
def remaining (s : State) : Nat := s.stream.size + if s.current = .endOfInput then 0 else 1

/-- The line of the item read last. -/
def place (s : State) : Place := s.position.place

/-- Notes an event. -/
def note (s : State) (event : Event) : State := { s with events := event :: s.events }

/-- The diagnostic for a lookahead that is not what was expected. -/
def unexpected (s : State) (expected : String) : Diagnostic :=
  { cause := if s.current = .endOfInput then .unexpectedEnd expected else .unexpectedToken s.current.description expected,
    place := s.place }

/-- The diagnostic for a declaration that gives no value to a variable. -/
def invalidDeclaration (s : State) (detail : String) : Diagnostic :=
  { cause := .invalidDeclaration detail, place := s.place }

end State

/-- A production: it reads tokens and yields a value or fails. -/
abbrev Production (α : Type) := EStateM Diagnostic State α

namespace Production

/-- The lookahead. -/
def current : Production Token := return (← get).current

/-- Notes an event. -/
def note (event : Event) : Production Unit := modify fun s => s.note event

/-- Fails because the lookahead is not what was expected. -/
def unexpected {α : Type} (expected : String) : Production α := do throw ((← get).unexpected expected)

/-- Fails because a declaration gives no value to a variable. -/
def invalidDeclaration {α : Type} (detail : String) : Production α := do throw ((← get).invalidDeclaration detail)

/-- Runs a production with a bound on the tokens it can read. -/
def bounded {α : Type} (p : Nat → Production α) : Production α := do p (← get).remaining

/-- Reads the next token into the lookahead. A malformed number literal is passed over and is a failure, and the lookahead stays
as it was. -/
def advance : Production Unit := fun s =>
  let (item, stream) := s.stream.next
  let s := { s with stream, position := item.position }
  match item.lexed with
  | .token t => .ok () { s with current := t }
  | .malformed literal => .error { cause := .malformedNumber literal, place := item.place } s

/-- Passes over separators, at most `n` of them. -/
def skipUpTo : Nat → Production Unit
  | 0 => pure ()
  | n + 1 => do
    if (← current) = .statementEnd then
      advance
      skipUpTo n

/-- Passes over the separators at the lookahead. -/
def skipStatementEnds : Production Unit := bounded skipUpTo

/-- Reads a given character. -/
def expectPunct (c : Char) (expected : String) : Production Unit := do
  if (← current).isPunct c then advance else unexpected expected

/-- Reads a name. -/
def identifier (expected : String) : Production String := do
  match ← current with
  | .identifier name =>
    advance
    return name
  | _ => unexpected expected

/-- Reads items with commas between them and a closing parenthesis behind the last, at most `n` of them. -/
def itemsUpTo {α : Type} (item : Production α) : Nat → Production (List α)
  | 0 => unexpected "',' or ')'"
  | n + 1 => do
    let first ← item
    if (← current).isPunct ',' then
      advance
      return first :: (← itemsUpTo item n)
    else if (← current).isPunct ')' then
      advance
      return [first]
    else
      unexpected "',' or ')'"

/-- Reads items with commas between them, up to and including a closing parenthesis. There may be none, but no comma may stand
before the parenthesis. -/
def commaSeparated {α : Type} (item : Production α) : Production (List α) := do
  if (← current).isPunct ')' then
    advance
    return []
  else
    bounded fun n => itemsUpTo item (n + 1)

end Production

end Offside
