import Offside.Session

/-!
# A recording host

A host that runs nothing: it keeps the programs it is given, and refuses them while it is told to.
-/

namespace Offside

/-- A host that keeps programs and values. -/
structure Recorder where
  /-- The programs accepted, in order. -/
  programs : List String := []
  values : List (String × String) := []
  /-- Whether programs are refused. -/
  rejecting : Bool := false
deriving DecidableEq, Repr

/-- A program was refused. -/
inductive HostFailure where
  | rejected
deriving DecidableEq, Repr

/-- The wording of a failure. -/
def HostFailure.message : HostFailure → String
  | rejected => "host failure: rejected"

instance : Host Recorder String HostFailure where
  execute program r := if r.rejecting then .error .rejected r else .ok () { r with programs := r.programs ++ [program] }
  get? r name := r.values.lookup name
  set r name value := { r with values := (name, value) :: r.values }

end Offside
