import Offside.Binary64.Shortest
import Offside.Expr

/-!
# Expressions on one line

An expression inside another one is written as a Python expression on one line. Assignments are the one thing that depends on where
it stands: a chain of them is written over its operands, however the chain is associated. A statement joins the operands by `=`;
anywhere else they become nested assignment expressions.
-/

namespace Offside

/-- The operands of a chain of assignments as one expression: each but the last is assigned the value of those behind it. -/
def nestedAssignment : List String → String
  | [] => ""
  | [value] => value
  | target :: operands => s!"({target} := {nestedAssignment operands})"

/-- The statements of a block as one expression: all of them are evaluated, and the value is that of the last. -/
def lastValue : List String → String
  | [] => "None"
  | [value] => value
  | values => "(" ++ ", ".intercalate values ++ ")[-1]"

namespace Expr

mutual

/-- The operands of a chain of assignments, each on one line; an expression that is not an assignment is its own only operand. -/
def operands : Expr → List String
  | number value => [value.literal]
  | var name => [name]
  | binary left op right _ =>
    if op = '=' then left.operands ++ right.operands
    else ["(" ++ nestedAssignment left.operands ++ " " ++ op.toString ++ " " ++ nestedAssignment right.operands ++ ")"]
  | ret value => ["return " ++ nestedAssignment value.operands]
  | call callee arguments => [callee ++ "(" ++ ", ".intercalate (inlineAll arguments) ++ ")"]
  | cond test yes none =>
    ["(" ++ nestedAssignment yes.operands ++ " if " ++ nestedAssignment test.operands ++ " else None)"]
  | cond test yes (some no) =>
    ["(" ++ nestedAssignment yes.operands ++ " if " ++ nestedAssignment test.operands ++ " else " ++
      nestedAssignment no.operands ++ ")"]
  | block _ statements => [lastValue (inlineAll statements)]

/-- Several expressions, each on one line. -/
def inlineAll : List Expr → List String
  | [] => []
  | e :: es => nestedAssignment e.operands :: inlineAll es

end

/-- An expression on one line. -/
def inline (e : Expr) : String := nestedAssignment e.operands

/-- An assignment as a statement, with the keyword for declarations in front if it declares its target. -/
def assignment (keyword : Option String) (declares : Bool) (e : Expr) : String :=
  match keyword, declares with
  | some word, true => word ++ " " ++ " = ".intercalate e.operands
  | _, _ => " = ".intercalate e.operands

end Expr

end Offside
