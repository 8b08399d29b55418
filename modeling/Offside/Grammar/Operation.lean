import Offside.Grammar.State

/-!
# Operations

Chains of binary operators over operands of any kind. The loosest operator a chain may hold is a parameter; an operator that binds
tighter than the one before it takes its left operand away, so that every operator associates to the left.
-/

namespace Offside.Grammar

open Production

/-- Reads operators that bind at least as tightly as `least`, with an operand behind each, and folds them onto `left`; at most `n`
of them in a row. -/
def operationsUpTo (operand : Production Expr) : Nat → Nat → Expr → Production Expr
  | 0, _, left => return left
  | n + 1, least, left => do
    match Operator.ofToken? (← current) with
    | none => return left
    | some op =>
      if op.precedence < least then
        return left
      else
        advance
        let right ← operand
        let right ←
          match Operator.ofToken? (← current) with
          | none => pure right
          | some next =>
            if op.precedence < next.precedence then operationsUpTo operand n (op.precedence + 1) right else pure right
        operationsUpTo operand n least (.operation left op.symbol right)

/-- Reads operators that bind at least as tightly as `least`, with an operand behind each, and folds them onto `left`. -/
def operationsWith (operand : Production Expr) (least : Nat) (left : Expr) : Production Expr :=
  bounded fun n => operationsUpTo operand n least left

/-- An expression over operands of the given kind. -/
def expressionWith (operand : Production Expr) : Production Expr := do
  operationsWith operand 0 (← operand)

end Offside.Grammar
