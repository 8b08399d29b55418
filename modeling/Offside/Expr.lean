import Offside.Binary64.Basic

/-!
# Expressions and functions

Everything in a script is an expression, statements included. A script is a list of functions and a list of expressions outside
them, which are kept as functions without parameters.
-/

namespace Offside

/-- An expression of a script. -/
inductive Expr where
  | number (value : Binary64)
  | var (name : String)
  /-- A binary operation. An assignment that declares its target is marked as such. -/
  | binary (left : Expr) (op : Char) (right : Expr) (declares : Bool)
  | ret (value : Expr)
  | call (callee : String) (arguments : List Expr)
  | cond (test yes : Expr) (no : Option Expr)
  /-- A block, with the number of blocks that are open inside it, itself included. -/
  | block (depth : Nat) (statements : List Expr)
deriving Repr, Inhabited

namespace Expr

/-- A binary operation that declares nothing. -/
def operation (left : Expr) (op : Char) (right : Expr) : Expr := binary left op right false

/-- The declaration of a variable with its first value. -/
def declaration (name : String) (value : Expr) : Expr := binary (var name) '=' value true

/-- Takes the first operand off a chain of assignments; the others are folded to the left again. An expression that is not an
assignment has no first operand. -/
def splitAssignment? : Expr → Option (Expr × Expr)
  | binary left op right _ =>
    if op = '=' then
      match splitAssignment? left with
      | some (first, rest) => some (first, operation rest '=' right)
      | none => some (left, right)
    else none
  | _ => none

end Expr

/-- The name of a function and the names of its parameters. -/
structure Prototype where
  name : String
  params : List String
deriving DecidableEq, Repr, Inhabited

/-- A function: its prototype and its body. -/
structure Function where
  prototype : Prototype
  body : Expr
deriving Repr, Inhabited

/-- The name of a function. -/
def Function.name (f : Function) : String := f.prototype.name

/-- The names of the parameters of a function. -/
def Function.params (f : Function) : List String := f.prototype.params

end Offside
