import Offside.Proofs.Grammar.Precedence

/-!
# The first operand of an assignment

A declaration is read as a chain of operations on the declared variable and taken apart again. If the chain begins with `=`, what is
taken off is the variable, and what is left is the tree of the rest of the chain; if it begins with another operator, the variable is
no operand of an assignment.
-/

namespace Offside.Grammar

/-- The assignment binds loosest of all operators, and it is the only one of its precedence. -/
theorem precedence_le_two_iff : ∀ op ∈ Operator.all, op.precedence ≤ 2 ↔ op.symbol = '=' := by
  decide

/-- The precedence of an assignment. -/
theorem precedence_of_assignment : ∀ op ∈ Operator.all, op.symbol = '=' → op.precedence = 2 := by
  decide

/-- A chain behind `=` is the value that is assigned to the first operand. -/
theorem Grouped.splitAssignment {first e : Expr} {rest : List (Operator × Expr)} (h : Grouped first rest e)
    (hfirst : first.splitAssignment? = none) (hall : ∀ x ∈ rest, x.1 ∈ Operator.all) :
    ∀ {op : Operator} {right : Expr} {more : List (Operator × Expr)}, rest = (op, right) :: more → op.symbol = '=' →
      ∃ value, e.splitAssignment? = some (first, value) ∧ Grouped right more value := by
  induction h with
  | operand => intro op right more hrest; cases hrest
  | @operation first right' l r before after root hl hr hb ha ihl _ =>
    intro op right more hrest hop
    have hroot : root ∈ Operator.all := hall (root, right') (by simp)
    cases before with
    | nil =>
      simp only [List.nil_append, List.cons.injEq, Prod.mk.injEq] at hrest
      obtain ⟨⟨rfl, rfl⟩, rfl⟩ := hrest
      obtain rfl := hl.unique (.operand first)
      refine ⟨r, ?_, hr⟩
      simp [Expr.operation, Expr.splitAssignment?, hop, hfirst]
    | cons b before =>
      simp only [List.cons_append, List.cons.injEq] at hrest
      obtain ⟨rfl, rfl⟩ := hrest
      have hopmem : op ∈ Operator.all := hall (op, right) (by simp)
      have hle : root.precedence ≤ 2 := precedence_of_assignment op hopmem hop ▸ hb (op, right) (by simp)
      have hsymbol : root.symbol = '=' := (precedence_le_two_iff root hroot).mp hle
      obtain ⟨value, hvalue, hgroup⟩ :=
        ihl hfirst (fun x hx => hall x (List.mem_append_left _ hx)) rfl hop
      refine ⟨.operation value '=' r, ?_, ?_⟩
      · simp [Expr.operation, Expr.splitAssignment?, hsymbol, hvalue]
      · rw [← hsymbol]
        exact .operation hgroup hr (fun x hx => hb x (List.mem_cons_of_mem _ hx)) ha

/-- What is taken off a chain that begins with another operator than `=` is no variable. -/
theorem Grouped.splitAssignment_var {first e : Expr} {rest : List (Operator × Expr)} (h : Grouped first rest e)
    (hfirst : first.splitAssignment? = none) :
    ∀ {name : String} {value : Expr}, e.splitAssignment? = some (.var name, value) →
      ∃ op right more, rest = (op, right) :: more ∧ op.symbol = '=' := by
  induction h with
  | operand => intro name value hs; rw [hfirst] at hs; cases hs
  | @operation first right l r before after root hl hr hb ha ihl _ =>
    intro name value hs
    by_cases hsymbol : root.symbol = '='
    · cases before with
      | nil => exact ⟨root, right, after, rfl, hsymbol⟩
      | cons b before =>
        obtain ⟨op, right'⟩ := b
        simp only [Expr.operation, Expr.splitAssignment?, hsymbol, if_true] at hs
        split at hs
        · rename_i first' rest' hl'
          cases hs
          obtain ⟨op', right'', more, hrest, hop⟩ := ihl hfirst hl'
          exact ⟨op', right'', more ++ (root, right) :: after, by rw [hrest]; rfl, hop⟩
        · -- the left operand holds an operator, so it is no variable
          cases hs
          generalize hrest : (op, right') :: before = rest at hl
          cases hl
          cases hrest
    · simp [Expr.operation, Expr.splitAssignment?, hsymbol] at hs

end Offside.Grammar
