import Offside.Layout.Inline
import Offside.Layout.Line
import Offside.Workspace

/-!
# Statements over lines

A statement takes one line or, if it is a condition, a header with lines below it at a deeper level. Blocks have no scope of their own:
a block that stands among statements is replaced by its statements, and one below a header sets the level of its lines, which is its
depth or one more than the level of the header, whichever is deeper.
-/

namespace Offside

/-- Where an expression is written. -/
inductive Slot where
  /-- Among statements, at their level. -/
  | statement
  /-- Below a header that is at the level. -/
  | body
  /-- As the other branch of a condition that is at the level. -/
  | otherwise
deriving DecidableEq, Repr

namespace Slot

/-- The header above an expression other than a condition. -/
def header (slot : Slot) (level : Nat) : List Line :=
  match slot with
  | otherwise => [{ level, text := "else:" }]
  | _ => []

/-- The level of a statement of one line. -/
def lineLevel (slot : Slot) (level : Nat) : Nat :=
  match slot with
  | statement => level
  | _ => level + 1

/-- The level of a condition. Below `else` it continues the condition before it. -/
def conditionLevel (slot : Slot) (level : Nat) : Nat :=
  match slot with
  | body => level + 1
  | _ => level

/-- The word a condition begins with. -/
def conditionWord (slot : Slot) : String :=
  match slot with
  | otherwise => "elif "
  | _ => "if "

/-- The level of the statements of a block. -/
def blockLevel (slot : Slot) (level depth : Nat) : Nat :=
  match slot with
  | statement => level
  | _ => max depth (level + 1)

end Slot

namespace Expr

/-- The text of an expression that is a statement of one line. -/
def statementText (options : Options) (e : Expr) : String :=
  match e with
  | binary _ op _ declares => if op = '=' then e.assignment options.declarationKeyword declares else e.inline
  | _ => e.inline

mutual

/-- The lines of an expression in a slot at a level. -/
def lines (options : Options) (slot : Slot) (level : Nat) : Expr → List Line
  | cond test yes no =>
    let own := slot.conditionLevel level
    { level := own, text := slot.conditionWord ++ test.inline ++ ":" } :: yes.lines options .body own ++
      match no with
      | none => []
      | some no => no.lines options .otherwise own
  | block depth statements =>
    let own := slot.blockLevel level depth
    slot.header level ++
      match statements with
      | [] => [{ level := own, text := "pass" }]
      | first :: rest => first.lines options .statement own ++ linesAll options own rest
  | e => slot.header level ++ [{ level := slot.lineLevel level, text := e.statementText options }]

/-- The lines of statements at a level. -/
def linesAll (options : Options) (level : Nat) : List Expr → List Line
  | [] => []
  | e :: es => e.lines options .statement level ++ linesAll options level es

end

/-- The text of an expression as a statement. -/
def renderStatement (options : Options) (e : Expr) : String := Line.renderAll options (e.lines options .statement 0)

end Expr

/-- The lines of a function: its header, its body, and an empty line. -/
def Function.lines (options : Options) (f : Function) : List Line :=
  { level := 0, text := "def " ++ f.name ++ "(" ++ ", ".intercalate f.params ++ "):" } ::
    f.body.lines options .body 0 ++ [Line.empty]

namespace Workspace

/-- The lines of the expressions outside functions. -/
def globalLines (options : Options) (w : Workspace) : List Line := w.globals.flatMap fun f => f.body.lines options .statement 0

/-- The lines of the functions. -/
def functionLines (options : Options) (w : Workspace) : List Line := w.functions.flatMap (Function.lines options)

/-- The program for what has been read: the expressions outside functions, an empty line, and the functions. -/
def render (options : Options) (w : Workspace) : String :=
  Line.renderAll options (w.globalLines options ++ Line.empty :: w.functionLines options)

end Workspace

end Offside
