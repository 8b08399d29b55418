import Offside.Expr
import Offside.Externals
import Offside.Options

/-!
# Workspaces

A workspace keeps what has been read from one source after another: the expressions outside functions and the functions, in the
order in which they were read.
-/

namespace Offside

/-- What has been read so far, and the names that reading depends on. -/
structure Workspace where
  /-- The expressions outside functions, each as the body of a function with the prototype `globalPrototype`. -/
  globals : List Function
  functions : List Function
  externals : Externals
  /-- The number of blocks that are open. -/
  depth : Nat
  /-- The name under which expressions outside functions are kept. -/
  globalName : String
deriving Repr, Inhabited

namespace Workspace

/-- The workspace in which nothing has been read. -/
def new (externals : Externals) (options : Options) : Workspace :=
  { globals := [], functions := [], externals, depth := 0, globalName := options.globalName }

/-- The prototype that all expressions outside functions share. -/
def globalPrototype (w : Workspace) : Prototype := { name := w.globalName, params := [] }

/-- The first function with a given name. -/
def function? (w : Workspace) (name : String) : Option Function := w.functions.find? fun f => f.name == name

/-- Adds an expression outside functions. -/
def addGlobal (w : Workspace) (f : Function) : Workspace := { w with globals := w.globals ++ [f] }

/-- Adds a function. -/
def addFunction (w : Workspace) (f : Function) : Workspace := { w with functions := w.functions ++ [f] }

/-- Forgets what has been read, and keeps the names that reading depends on. -/
def clear (w : Workspace) : Workspace := { w with globals := [], functions := [], depth := 0 }

end Workspace

end Offside
