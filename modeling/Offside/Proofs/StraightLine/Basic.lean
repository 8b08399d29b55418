import Offside.Layout.Statement
import Offside.Proofs.Layout.Legible
import Offside.Proofs.Token.Callee

/-!
# Straight-line code

Numbers, variables, calls and the operators of arithmetic and comparison, with a chain of assignments over such operands at most at
the root of a statement. Such a statement takes one line, and the line depends neither on how the chain is associated nor on what is
marked as a declaration.
-/

namespace Offside

/-- The operators of arithmetic and comparison. -/
def arithmeticSymbols : List Char := ['<', '>', '+', '-', '*', '/']

namespace Expr

mutual

/-- Whether an expression is made of finite numbers with a clear sign bit, variables, calls, arithmetic and comparisons. -/
def isArithmetic : Expr → Bool
  | number value => decide value.IsPlain
  | var name => isName name
  | binary left op right _ => arithmeticSymbols.contains op && left.isArithmetic && right.isArithmetic
  | call callee arguments => isCallee callee && allArithmetic arguments
  | _ => false

/-- Whether all of several expressions are of that kind. -/
def allArithmetic : List Expr → Bool
  | [] => true
  | e :: es => e.isArithmetic && allArithmetic es

end

/-- Whether an expression is arithmetic, or a chain of assignments over arithmetic operands, associated in any way. -/
def isStraightLine : Expr → Bool
  | binary left op right declares =>
    if op = '=' then left.isStraightLine && right.isStraightLine else (binary left op right declares).isArithmetic
  | e => e.isArithmetic

mutual

/-- An expression in which nothing is marked as a declaration. -/
def unmarked : Expr → Expr
  | number value => number value
  | var name => var name
  | binary left op right _ => operation left.unmarked op right.unmarked
  | ret value => ret value.unmarked
  | call callee arguments => call callee (unmarkedAll arguments)
  | cond test yes none => cond test.unmarked yes.unmarked none
  | cond test yes (some no) => cond test.unmarked yes.unmarked (some no.unmarked)
  | block depth statements => block depth (unmarkedAll statements)

/-- Several expressions in which nothing is marked as a declaration. -/
def unmarkedAll : List Expr → List Expr
  | [] => []
  | e :: es => e.unmarked :: unmarkedAll es

end

/-- The operands of the chain of assignments at the root of an expression, from left to right. -/
def chainOperands : Expr → List Expr
  | binary left op right declares => if op = '=' then left.chainOperands ++ right.chainOperands else [binary left op right declares]
  | e => [e]

/-- The chain of assignments over the given operands, associated to the left. -/
def assignments : List Expr → Expr
  | [] => default
  | first :: rest => rest.foldl (operation · '=' ·) first

/-- An expression with the chain of assignments at its root associated to the left, and nothing marked as a declaration. -/
def refolded (e : Expr) : Expr := assignments (e.chainOperands.map unmarked)

theorem allArithmetic_iff {es : List Expr} : allArithmetic es = true ↔ ∀ e ∈ es, e.isArithmetic = true := by
  induction es with
  | nil => simp [allArithmetic]
  | cons e es ih => simp [allArithmetic, ih]

/-- Several expressions are cleared of marks one by one. -/
theorem unmarkedAll_eq_map (es : List Expr) : unmarkedAll es = es.map unmarked := by
  induction es with
  | nil => rfl
  | cons e es ih => rw [unmarkedAll, ih, List.map_cons]

/-- What is marked as a declaration makes no difference to the text of an expression. -/
theorem operands_unmarked (e : Expr) : e.unmarked.operands = e.operands := by
  have hall : ∀ es : List Expr, (∀ e ∈ es, e.unmarked.operands = e.operands) →
      inlineAll (unmarkedAll es) = inlineAll es := by
    intro es h
    rw [unmarkedAll_eq_map, inlineAll_eq_map, inlineAll_eq_map, List.map_map]
    refine List.map_congr_left fun e he => ?_
    simp only [Function.comp_apply, inline, h e he]
  induction e using Expr.induct with
  | number value => rfl
  | var name => rfl
  | binary left op right declares hl hr => simp only [unmarked, operation, operands, hl, hr]
  | ret value ih => simp only [unmarked, operands, ih]
  | call callee arguments ih => simp only [unmarked, operands, hall arguments ih]
  | cond test yes no htest hyes hno =>
    cases no with
    | none => simp only [unmarked, operands, htest, hyes]
    | some no => simp only [unmarked, operands, htest, hyes, hno no rfl]
  | block depth statements ih => simp only [unmarked, operands, hall statements ih]

/-- The texts of a chain are those of its operands, in their order. -/
theorem operands_eq_flatMap (e : Expr) : e.operands = e.chainOperands.flatMap operands := by
  induction e using Expr.induct with
  | binary left op right declares hl hr =>
    rw [chainOperands]
    split
    case isTrue hop => rw [operands, if_pos hop, hl, hr, List.flatMap_append]
    case isFalse => rw [List.flatMap_singleton]
  | _ => simp [chainOperands]

/-- The operands of a chain are no chains: each is a text of its own. -/
theorem operands_eq_map (e : Expr) : e.operands = e.chainOperands.map inline := by
  induction e using Expr.induct with
  | binary left op right declares hl hr =>
    rw [chainOperands]
    split
    case isTrue hop => rw [operands, if_pos hop, hl, hr, List.map_append]
    case isFalse hop => simp [inline, operands, hop, nestedAssignment]
  | cond test yes no => cases no <;> simp [chainOperands, inline, operands, nestedAssignment]
  | _ => simp [chainOperands, inline, operands, nestedAssignment]

/-- The texts of a chain that is folded to the left are in the order of its operands. -/
theorem operands_assignments {first : Expr} (rest : List Expr) :
    (assignments (first :: rest)).operands = first.operands ++ rest.flatMap operands := by
  rw [assignments]
  induction rest generalizing first with
  | nil => simp
  | cons second rest ih =>
    rw [List.foldl_cons, ih, operation, operands, if_pos rfl, List.flatMap_cons, List.append_assoc]

/-- A chain has an operand at least. -/
theorem chainOperands_ne_nil (e : Expr) : e.chainOperands ≠ [] := by
  induction e using Expr.induct with
  | binary left op right declares hl hr =>
    rw [chainOperands]
    split <;> simp [hl]
  | _ => simp [chainOperands]

/-- How a chain of assignments is associated makes no difference to the text of its operands. -/
theorem operands_refolded (e : Expr) : e.refolded.operands = e.operands := by
  obtain ⟨first, rest, heq⟩ := List.exists_cons_of_ne_nil e.chainOperands_ne_nil
  rw [operands_eq_flatMap e, refolded, heq, List.map_cons, operands_assignments, List.flatMap_cons, operands_unmarked,
    List.flatMap_map]
  simp only [operands_unmarked]

/-- An assignment is no arithmetic. -/
theorem assignment_not_arithmetic : ∀ op ∈ arithmeticSymbols, op ≠ '=' := by
  decide

/-- Marks make no difference to what is arithmetic. -/
theorem isArithmetic_unmarked (e : Expr) : e.unmarked.isArithmetic = e.isArithmetic := by
  induction e using Expr.induct with
  | number value => rfl
  | var name => rfl
  | binary left op right declares hl hr => simp only [unmarked, operation, isArithmetic, hl, hr]
  | ret value ih => rfl
  | call callee arguments ih =>
    have hall : allArithmetic (unmarkedAll arguments) = allArithmetic arguments := by
      rw [Bool.eq_iff_iff, allArithmetic_iff, allArithmetic_iff, unmarkedAll_eq_map, List.forall_mem_map]
      exact forall_congr' fun e => forall_congr' fun he => by rw [ih e he]
    simp only [unmarked, isArithmetic, hall]
  | cond test yes no => cases no <;> rfl
  | block depth statements ih => rfl

/-- An arithmetic expression is a chain of one operand. -/
theorem isStraightLine_of_isArithmetic {e : Expr} (h : e.isArithmetic = true) : e.isStraightLine = true := by
  cases e with
  | binary left op right declares =>
    have hop : op ≠ '=' := by
      simp only [isArithmetic, Bool.and_eq_true, List.contains_iff_mem] at h
      exact assignment_not_arithmetic op h.1.1
    rw [isStraightLine, if_neg hop]
    exact h
  | _ => exact h

/-- A chain has arithmetic operands. -/
theorem isArithmetic_of_mem_chainOperands {e : Expr} (h : e.isStraightLine = true) :
    ∀ o ∈ e.chainOperands, o.isArithmetic = true := by
  induction e using Expr.induct with
  | binary left op right declares hl hr =>
    rw [isStraightLine] at h
    rw [chainOperands]
    split at h
    case isTrue hop =>
      rw [Bool.and_eq_true] at h
      rw [if_pos hop]
      intro o ho
      exact (List.mem_append.mp ho).elim (hl h.1 o) (hr h.2 o)
    case isFalse hop =>
      rw [if_neg hop]
      intro o ho
      rw [List.mem_singleton.mp ho]
      exact h
  | _ => simpa [chainOperands, isStraightLine] using h

theorem isStraightLine_assignments {first : Expr} (rest : List Expr) (hfirst : first.isStraightLine = true)
    (h : ∀ e ∈ rest, e.isStraightLine = true) : (assignments (first :: rest)).isStraightLine = true := by
  rw [assignments]
  induction rest generalizing first with
  | nil => exact hfirst
  | cons second rest ih =>
    have hstep : (operation first '=' second).isStraightLine = true := by
      rw [operation, isStraightLine, if_pos rfl, hfirst, h second List.mem_cons_self]
      rfl
    exact ih hstep fun e he => h e (List.mem_cons_of_mem _ he)

/-- Associating a chain in another way leaves it straight-line code. -/
theorem isStraightLine_refolded {e : Expr} (h : e.isStraightLine = true) : e.refolded.isStraightLine = true := by
  have hall := isArithmetic_of_mem_chainOperands h
  have hunmarked : ∀ o ∈ e.chainOperands, o.unmarked.isStraightLine = true := fun o ho =>
    isStraightLine_of_isArithmetic (by rw [isArithmetic_unmarked, hall o ho])
  obtain ⟨first, rest, heq⟩ := List.exists_cons_of_ne_nil e.chainOperands_ne_nil
  rw [heq] at hunmarked
  rw [refolded, heq, List.map_cons]
  refine isStraightLine_assignments _ (hunmarked first List.mem_cons_self) ?_
  rw [List.forall_mem_map]
  exact fun o ho => hunmarked o (List.mem_cons_of_mem _ ho)

/-- A statement of one line is its operands with `=` between each two. -/
theorem statementText_eq (e : Expr) : e.statementText {} = " = ".intercalate e.operands := by
  cases e with
  | binary left op right declares =>
    rw [statementText]
    split
    case isTrue => simp [assignment]
    case isFalse hop => simp [inline, operands, hop, nestedAssignment]
  | cond test yes no => cases no <;> simp [statementText, inline, operands, nestedAssignment]
  | _ => simp [statementText, inline, operands, nestedAssignment]

/-- The line of a statement does not depend on how its chain is associated. -/
theorem statementText_refolded (e : Expr) : e.refolded.statementText {} = e.statementText {} := by
  rw [statementText_eq, operands_refolded, statementText_eq]

/-- Straight-line code takes one line. -/
theorem lines_of_isStraightLine {e : Expr} (h : e.isStraightLine = true) :
    e.lines {} .statement 0 = [{ level := 0, text := e.statementText {} }] := by
  cases e with
  | ret | cond | block => simp [isStraightLine, isArithmetic] at h
  | _ => rfl

end Expr

end Offside
