import Offside.Proofs.Formed

/-!
# Renaming

A renaming replaces the names of the variables and of the callees in an expression, each of them once. Numbers, operators and the
shape of the expression stay as they are, and so do the names that functions and parameters are declared with.
-/

namespace Offside

namespace Expr

mutual

/-- An expression with other names for its variables and callees. -/
def renamed (f : String → String) : Expr → Expr
  | number value => number value
  | var name => var (f name)
  | binary left op right declares => binary (left.renamed f) op (right.renamed f) declares
  | ret value => ret (value.renamed f)
  | call callee arguments => call (f callee) (renamedAll f arguments)
  | cond test yes none => cond (test.renamed f) (yes.renamed f) none
  | cond test yes (some no) => cond (test.renamed f) (yes.renamed f) (some (no.renamed f))
  | block depth statements => block depth (renamedAll f statements)

/-- Several expressions with other names for their variables and callees. -/
def renamedAll (f : String → String) : List Expr → List Expr
  | [] => []
  | e :: es => e.renamed f :: renamedAll f es

end

variable (f : String → String)

/-- Several expressions are renamed one by one. -/
@[simp] theorem renamedAll_eq_map (es : List Expr) : renamedAll f es = es.map (renamed f) := by
  induction es with
  | nil => rfl
  | cons e es ih => rw [renamedAll, ih, List.map_cons]

@[simp] theorem renamed_operation (left : Expr) (op : Char) (right : Expr) :
    (operation left op right).renamed f = operation (left.renamed f) op (right.renamed f) := rfl

/-- The name that is declared is renamed like any other. -/
@[simp] theorem renamed_declaration (name : String) (value : Expr) :
    (declaration name value).renamed f = declaration (f name) (value.renamed f) := rfl

@[simp] theorem renamed_cond (test yes : Expr) (no : Option Expr) :
    (cond test yes no).renamed f = cond (test.renamed f) (yes.renamed f) (no.map (renamed f)) := by
  cases no <;> rfl

/-- Replacing every name by itself changes nothing. -/
@[simp] theorem renamed_id (e : Expr) : e.renamed id = e := by
  have hall : ∀ es : List Expr, (∀ e ∈ es, e.renamed id = e) → es.map (renamed id) = es := fun es h =>
    (List.map_congr_left h).trans (List.map_id es)
  induction e using Expr.induct with
  | number value => rfl
  | var name => rfl
  | binary left op right declares hl hr => rw [renamed, hl, hr]
  | ret value ih => rw [renamed, ih]
  | call callee arguments ih => rw [renamed, renamedAll_eq_map, hall arguments ih]; rfl
  | cond test yes no htest hyes hno =>
    cases no with
    | none => rw [renamed, htest, hyes]
    | some no => rw [renamed, htest, hyes, hno no rfl]
  | block depth statements ih => rw [renamed, renamedAll_eq_map, hall statements ih]

/-- The first operand of a chain of assignments is taken off alike under other names. -/
theorem splitAssignment?_renamed (e : Expr) :
    (e.renamed f).splitAssignment? = e.splitAssignment?.map fun parts => (parts.1.renamed f, parts.2.renamed f) := by
  induction e using Expr.induct with
  | binary left op right declares hl _ =>
    rw [renamed, splitAssignment?, splitAssignment?, hl]
    split
    · cases left.splitAssignment? with
      | none => rfl
      | some parts => rfl
    · rfl
  | cond test yes no => cases no <;> rfl
  | _ => rfl

end Expr

/-- A function with other names for the variables and callees in its body. Its own name and its parameters keep theirs. -/
def Function.renamed (f : String → String) (g : Function) : Function := { g with body := g.body.renamed f }

/-- Nothing is renamed by the identity. -/
theorem Function.renamed_id (g : Function) : g.renamed id = g := by
  rw [Function.renamed, Expr.renamed_id]

@[simp] theorem Function.map_renamed_id (gs : List Function) : gs.map (.renamed id) = gs :=
  (List.map_congr_left fun g _ => g.renamed_id).trans (List.map_id gs)

end Offside
