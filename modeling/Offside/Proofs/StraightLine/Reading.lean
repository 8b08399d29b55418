import Offside.Proofs.Grammar.Reading
import Offside.Proofs.StraightLine.Spelling

/-!
# Straight-line code is read back

Where the tokens of an arithmetic expression are to come, an operand is read, and it is that expression with nothing marked as a
declaration. The parentheses around every operation leave no choice of grouping; the operands of a chain of assignments stand side by
side, and the chain is grouped to the left.
-/

namespace Offside

open Production Grammar

namespace Expr

variable {w : Workspace}

/-- The operators of arithmetic are operators of the grammar. -/
theorem mem_operatorSymbols_of_arithmetic : ∀ c ∈ arithmeticSymbols, c ∈ operatorSymbols := by
  decide

/-- The tokens of an arithmetic expression are read as that expression, with nothing marked in it. -/
theorem reads_of_isArithmetic (hw : w.externals = .empty) {e : Expr} (h : e.isArithmetic = true) :
    ReadsOperand w e.tokens e.unmarked := by
  induction e using Expr.induct with
  | number value => exact readsOperand_number value
  | var name => exact readsOperand_var hw name
  | binary left op right declares hl hr =>
    simp only [isArithmetic, Bool.and_eq_true, List.contains_iff_mem] at h
    have hoperation := (hl h.1.2).operation (mem_operatorSymbols_of_arithmetic op h.1.1) (hr h.2)
    rw [unmarked]
    simpa [tokens] using hoperation.grouping
  | call callee arguments ih =>
    rw [isArithmetic, Bool.and_eq_true, allArithmetic_iff] at h
    rw [tokens, tokensAll_eq_map, unmarked, unmarkedAll_eq_map]
    exact readsOperand_call hw h.1 fun e he => ih e he (h.2 e he)
  | _ => cases h

/-- The operator that assigns. -/
def assigning : Operator := ⟨'=', 2⟩

/-- A chain of assignments is grouped to the left. -/
theorem grouped_assignments (first : Expr) (rest : List Expr) :
    Grouped first (rest.map fun e => (assigning, e)) (assignments (first :: rest)) := by
  rw [assignments]
  induction rest generalizing first with
  | nil => exact .operand first
  | cons second rest ih =>
    have hstep : Grouped first [(assigning, second)] (operation first '=' second) := .of_tighter (.operand second) (by simp)
    refine hstep.append (ih (operation first '=' second)) fun y hy x hx => ?_
    rw [List.mem_singleton.mp hx]
    cases rest with
    | nil => cases hy
    | cons third rest =>
      cases hy
      exact Nat.le_refl _

/-- The tokens of a statement are those of its first operand, and of an assignment for every other one. -/
theorem statementTokens_eq {e first : Expr} {rest : List Expr} (h : e.chainOperands = first :: rest) :
    e.statementTokens = first.tokens ++ chainTokens tokens (rest.map fun o => (assigning, o)) := by
  have hchain : ∀ es : List Expr,
      chainTokens tokens (es.map fun o => (assigning, o)) = (es.map tokens).flatMap (.punct '=' :: ·) := by
    intro es
    induction es with
    | nil => rfl
    | cons o es ih =>
      rw [List.map_cons, chainTokens, ih]
      rfl
  rw [statementTokens, h, List.map_cons, Token.joined, hchain]

/-- The tokens of a straight-line statement are read as that statement, folded to the left and with nothing marked in it. -/
theorem statement_reads (hw : w.externals = .empty) {e : Expr} (h : e.isStraightLine = true) {s : State} {rest : List Token}
    (hrest : endsExpression rest = true) (hview : Views w s (e.statementTokens ++ rest)) :
    ∃ t, expression s = .ok e.refolded t ∧ Views w t rest := by
  have hreads := fun o ho => reads_of_isArithmetic hw (isArithmetic_of_mem_chainOperands h o ho)
  obtain ⟨first, more, heq⟩ := List.exists_cons_of_ne_nil e.chainOperands_ne_nil
  rw [heq] at hreads
  rw [statementTokens_eq heq, List.append_assoc] at hview
  have hgrouped : Grouped first.unmarked ((more.map fun o => (assigning, o)).map fun x => (x.1, x.2.unmarked)) e.refolded := by
    have hfold := grouped_assignments first.unmarked (more.map unmarked)
    rw [List.map_map] at hfold ⊢
    rw [refolded, heq]
    exact hfold
  refine expression_reads unmarked hrest (hreads first List.mem_cons_self) _ ?_ ?_ hview hgrouped
  · rw [List.forall_mem_map]
    exact fun _ _ => (by decide : assigning ∈ Operator.all)
  · rw [List.forall_mem_map]
    exact fun o ho => hreads o (List.mem_cons_of_mem first ho)

end Expr

end Offside
