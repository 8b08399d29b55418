import Offside.Diagnostic
import Offside.Expr

/-!
# Traces

What happens while a source is read and handed on, as a list of events. The wording of every event is here.
-/

namespace Offside

/-- Something that happened. -/
inductive Event where
  | call (callee : String) (arguments : Nat)
  | declaration (name : String)
  | conditional (hasElse : Bool)
  | function (prototype : Prototype)
  /-- A construct was given up. -/
  | problem (diagnostic : Diagnostic)
  /-- A source was read to its end: the sizes of the workspace, and the number of problems in this source. -/
  | finished (globals functions problems : Nat)
  /-- A program is handed to the host. -/
  | execution (program : String)
  /-- A program was written to a file. -/
  | written (path : String)
deriving DecidableEq, Repr

namespace Event

/-- How much an event matters. -/
inductive Level where
  | debug
  | info
  | warn
deriving DecidableEq, Repr

/-- How levels are written. -/
def Level.label : Level → String
  | debug => "DEBUG"
  | info => "INFO"
  | warn => "WARN"

/-- Problems are warnings, and all about reading that is not a problem is detail. -/
def level : Event → Level
  | problem _ => .warn
  | written _ => .info
  | _ => .debug

/-- The wording of an event. -/
def message : Event → String
  | call callee arguments => s!"parsed call to {callee} with {arguments} argument(s)"
  | declaration name => s!"parsed declaration of {name}"
  | conditional hasElse => "parsed if expression (else branch: " ++ (if hasElse then "true" else "false") ++ ")"
  | function prototype => "parsed function " ++ prototype.name ++ "(" ++ ", ".intercalate prototype.params ++ ")"
  | problem diagnostic => diagnostic.message
  | finished globals functions problems =>
    s!"parsed {globals} global(s) and {functions} function(s) so far; {problems} error(s) in this input"
  | execution program => "executing generated program:\n" ++ program
  | written path => "wrote " ++ path

/-- An event as a line of a log. -/
def entry (e : Event) : String := e.level.label ++ " " ++ e.message

end Event

end Offside
