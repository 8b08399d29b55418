import Offside.Grammar.Operation

/-!
# Expressions

The operands of the language and the expressions over them. An operand holds expressions in turn; each production takes the
operands inside it as a parameter, and `primary` closes the circle: what is inside an operand begins behind its first token, so the
number of tokens that remain bounds the nesting.
-/

namespace Offside.Grammar

open Production

/-- The member behind a name, if there is a point. -/
def member? : Production (Option String) := do
  if (← current).isPunct '.' then
    advance
    some <$> identifier "a member name after '.'"
  else
    return none

/-- What a name stands for. A name with a member behind a point is always called. Names that the host knows are replaced by the
flat names they stand for. -/
def namedWith (operand : Production Expr) (first : String) (member? : Option String) : Production Expr := do
  let name := (← get).workspace.externals.resolve (member?.elim first fun member => first ++ "." ++ member)
  if member?.isSome || (← current).isPunct '(' then
    expectPunct '(' "'(' after a qualified name"
    let arguments ← commaSeparated (expressionWith operand)
    note (.call name arguments.length)
    return .call name arguments
  else
    return .var name

/-- A variable, or a call of a function. -/
def referenceWith (operand : Production Expr) : Production Expr := do
  let first ← identifier "an identifier"
  namedWith operand first (← member?)

/-- The value that a function returns. -/
def returnWith (operand : Production Expr) : Production Expr := do
  advance
  return .ret (← expressionWith operand)

/-- The declaration of a variable, given the chain of operations on it. The chain has to be an assignment to the variable. -/
def declared (name : String) (chain : Expr) : Production Expr :=
  match chain.splitAssignment? with
  | some (.var _, value) => do
    note (.declaration name)
    return .declaration name value
  | _ => invalidDeclaration ("'" ++ name ++ "' has no initializer")

/-- The declaration of a variable. What follows the name is read as a chain of operations on the variable. -/
def declarationWith (operand : Production Expr) : Production Expr := do
  advance
  match ← referenceWith operand with
  | .var name => declared name (← operationsWith operand 0 (.var name))
  | _ => invalidDeclaration "expected a variable name after 'var'"

/-- The other branch of a condition, if there is one. -/
def otherwiseWith (operand : Production Expr) : Production (Option Expr) := do
  if (← current) = .keyword .else_ then
    advance
    skipStatementEnds
    some <$> expressionWith operand
  else
    return none

/-- A condition with one or two branches. Separators may stand before each branch and before `else`. -/
def conditionalWith (operand : Production Expr) : Production Expr := do
  advance
  expectPunct '(' "'(' after 'if'"
  let test ← expressionWith operand
  expectPunct ')' "')' after the if condition"
  skipStatementEnds
  let yes ← expressionWith operand
  skipStatementEnds
  let no ← otherwiseWith operand
  note (.conditional no.isSome)
  return .cond test yes no

/-- An expression in parentheses, which leave no trace in it. -/
def groupingWith (operand : Production Expr) : Production Expr := do
  advance
  let inner ← expressionWith operand
  expectPunct ')' "')' to close the parenthesized expression"
  return inner

/-- The statements of a block, at most `n` of them. A closing brace ends the block; the end of the input and a function end it too
and are not read. -/
def statementsUpTo (operand : Production Expr) : Nat → Production (List Expr)
  | 0 => return []
  | n + 1 => do
    skipStatementEnds
    match ← current with
    | .punct '}' =>
      advance
      return []
    | .endOfInput | .keyword .function => return []
    | _ =>
      let statement ← expressionWith operand
      return statement :: (← statementsUpTo operand n)

/-- Runs a production inside one more block. The block is closed whether it succeeds or fails. -/
def insideBlock {α : Type} (p : Production α) : Production α := fun s =>
  let outer := s.workspace
  match p { s with workspace := { outer with depth := outer.depth + 1 } } with
  | .ok a s => .ok a { s with workspace := { s.workspace with depth := s.workspace.depth - 1 } }
  | .error e s => .error e { s with workspace := { s.workspace with depth := s.workspace.depth - 1 } }

/-- A block of statements in braces. -/
def blockWith (operand : Production Expr) : Production Expr := do
  expectPunct '{' r"'{'"
  let depth := (← get).workspace.depth + 1
  return .block depth (← insideBlock (bounded (statementsUpTo operand)))

/-- An operand, by the token it begins with. -/
def primaryWith (operand : Production Expr) : Production Expr := do
  match ← current with
  | .number value =>
    advance
    return .number value
  | .identifier _ => referenceWith operand
  | .keyword .return_ => returnWith operand
  | .keyword .var => declarationWith operand
  | .keyword .if_ => conditionalWith operand
  | .punct '(' => groupingWith operand
  | .punct '{' => blockWith operand
  | _ => unexpected "an expression"

/-- An operand that is at most `n` deep. Where no token remains there is none. -/
def primaryUpTo : Nat → Production Expr
  | 0 => unexpected "an expression"
  | n + 1 => primaryWith (primaryUpTo n)

/-- An operand: a number, a reference, a returned value, a declaration, a condition, an expression in parentheses, or a block. -/
def primary : Production Expr := bounded primaryUpTo

/-- Reads operators that bind at least as tightly as `least`, with an operand behind each, and folds them onto `left`. -/
def operations (least : Nat) (left : Expr) : Production Expr := operationsWith primary least left

/-- An expression. -/
def expression : Production Expr := expressionWith primary

/-- A variable, or a call of a function. -/
def reference : Production Expr := referenceWith primary

/-- A condition; the lookahead is its first word, which is not looked at. -/
def conditional : Production Expr := conditionalWith primary

/-- A block of statements in braces. -/
def block : Production Expr := blockWith primary

end Offside.Grammar
