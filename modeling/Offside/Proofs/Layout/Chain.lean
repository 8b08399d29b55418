import Offside.Proofs.StraightLine.Basic

/-!
# Chains of assignments

A chain of assignments is written by its operands alone. `Associates os e` says that `e` is a tree of assignments with the operands
`os` from left to right: how the tree is associated, what is marked as a declaration in it and what the operands are is left open.
On one line every such tree is `(a := (b := c))` over its operands, and as a statement it is `a = b = c`, with the keyword for
declarations in front of it exactly if the root is marked and there is a keyword.
-/

namespace Offside

namespace Expr

/-- Whether an expression is an assignment. -/
def isAssignment : Expr → Bool
  | binary _ op _ _ => op == '='
  | _ => false

/-- Whether the root of an expression is marked as a declaration. -/
def declares : Expr → Bool
  | binary _ _ _ marked => marked
  | _ => false

/-- `Associates os e`: `e` is a tree of assignments whose leaves, none of them an assignment, are `os` from left to right. -/
inductive Associates : List Expr → Expr → Prop where
  | operand {e : Expr} : e.isAssignment = false → Associates [e] e
  | assign {as bs : List Expr} {left right : Expr} (marked : Bool) : Associates as left → Associates bs right →
      Associates (as ++ bs) (.binary left '=' right marked)

/-- Only an assignment has other operands than itself. -/
theorem chainOperands_of_isAssignment {e : Expr} (h : e.isAssignment = false) : e.chainOperands = [e] := by
  cases e with
  | binary left op right marked =>
    have hop : op ≠ '=' := by simpa [isAssignment] using h
    rw [chainOperands, if_neg hop]
  | _ => rfl

/-- The leaves of a tree of assignments are what its chain is read off as. -/
theorem associates_iff {os : List Expr} {e : Expr} : Associates os e ↔ e.chainOperands = os := by
  constructor
  · intro h
    induction h with
    | operand h => exact chainOperands_of_isAssignment h
    | assign marked _ _ hl hr => rw [chainOperands, if_pos rfl, hl, hr]
  · rintro rfl
    induction e using Expr.induct with
    | binary left op right marked hl hr =>
      by_cases hop : op = '='
      · subst hop
        rw [chainOperands, if_pos rfl]
        exact .assign marked hl hr
      · rw [chainOperands, if_neg hop]
        exact .operand (by simpa [isAssignment] using hop)
    | _ => exact .operand rfl

/-- A tree with more than one leaf has an assignment at its root. -/
theorem Associates.root {targets : List Expr} {value e : Expr} (h : Associates (targets ++ [value]) e) (hne : targets ≠ []) :
    ∃ left right, e = .binary left '=' right e.declares := by
  generalize hos : targets ++ [value] = os at h
  cases h with
  | operand =>
    have hlength := congrArg List.length hos
    simp [hne] at hlength
  | assign marked => exact ⟨_, _, rfl⟩

end Expr

/-- Every operand but the last is followed by `:=`, and what is opened in front of it is closed at the end. -/
theorem nestedAssignment_append (targets : List String) (value : String) :
    nestedAssignment (targets ++ [value]) =
      String.join (targets.map fun target => "(" ++ target ++ " := ") ++ value ++
        String.ofList (List.replicate targets.length ')') := by
  induction targets with
  | nil => simp [nestedAssignment]
  | cons target targets ih =>
    have hclose : String.ofList (List.replicate targets.length ')') ++ ")" =
        String.ofList (List.replicate (targets.length + 1) ')') := by
      rw [List.replicate_succ', String.ofList_append]
    obtain ⟨second, rest, heq⟩ := List.exists_cons_of_ne_nil (List.append_ne_nil_of_right_ne_nil targets (List.cons_ne_nil value []))
    rw [List.cons_append, heq, nestedAssignment_cons_cons, ← heq, ih, List.length_cons, ← hclose]
    simp [String.append_assoc]

namespace Expr

/-- As a statement an assignment is one line: the keyword, if it is called for, and the operands. -/
theorem renderStatement_assignment (options : Options) (left right : Expr) (marked : Bool) :
    (binary left '=' right marked).renderStatement options =
      (if marked then (options.declarationKeyword.map (· ++ " ")).getD "" else "") ++
        " = ".intercalate (binary left '=' right marked).operands ++ "\n" := by
  have hlines : (binary left '=' right marked).lines options .statement 0 =
      [{ level := 0, text := (binary left '=' right marked).assignment options.declarationKeyword marked }] := by
    simp [lines, Slot.header, Slot.lineLevel, statementText]
  rw [renderStatement, hlines, Line.renderAll, List.map_singleton, Line.render, Options.indentation_zero]
  cases options.declarationKeyword with
  | none => cases marked <;> simp [assignment]
  | some word => cases marked <;> simp [assignment, String.append_assoc]

/-- However a chain of assignments is associated, and whatever is marked as a declaration inside it, its operands decide its text on
one line and, with the mark of its root, its text as a statement. -/
theorem Associates.text_by_operands {targets : List Expr} {value e e' : Expr} (hne : targets ≠ []) (h : Associates (targets ++ [value]) e)
    (h' : Associates (targets ++ [value]) e') (options : Options) :
    e.inline = e'.inline ∧
    e.inline = String.join (targets.map fun target => "(" ++ target.inline ++ " := ") ++ value.inline ++
      String.ofList (List.replicate targets.length ')') ∧
    (e.declares = e'.declares → e.renderStatement options = e'.renderStatement options) ∧
    e.renderStatement options = (if e.declares then (options.declarationKeyword.map (· ++ " ")).getD "" else "") ++
      " = ".intercalate ((targets ++ [value]).map inline) ++ "\n" := by
  have hoperands : ∀ {e : Expr}, Associates (targets ++ [value]) e → e.operands = (targets ++ [value]).map inline := by
    intro e h
    rw [operands_eq_map, associates_iff.mp h]
  have hstatement : ∀ {e : Expr}, Associates (targets ++ [value]) e → e.renderStatement options =
      (if e.declares then (options.declarationKeyword.map (· ++ " ")).getD "" else "") ++
        " = ".intercalate ((targets ++ [value]).map inline) ++ "\n" := by
    intro e h
    obtain ⟨left, right, heq⟩ := h.root hne
    rw [← hoperands h, heq]
    exact renderStatement_assignment options left right e.declares
  refine ⟨by rw [inline, inline, hoperands h, hoperands h'], ?_, fun hroot => ?_, hstatement h⟩
  · rw [inline, hoperands h, List.map_append, List.map_singleton, nestedAssignment_append, List.map_map, List.length_map]
    rfl
  · rw [hstatement h, hstatement h', hroot]

/-- Four operands, associated to the left and, inside a declaration, from the middle. -/
theorem Associates.text_by_operands_declaration :
    let cond := Expr.cond (.var "t") (.block 1 [.var "b", .operation (.var "c") '=' (.var "d")]) none
    let e := binary (.operation (.operation (.var "a") '=' cond) '=' (.call "f" [])) '=' (.operation (.var "x") '+' (.var "y")) true
    let e' := binary (.var "a") '=' (.binary (.operation cond '=' (.call "f" [])) '=' (.operation (.var "x") '+' (.var "y")) true) true
    e.inline = "(a := (((b, (c := d))[-1] if t else None) := (f() := (x + y))))" ∧ e'.inline = e.inline ∧
      e'.renderStatement { declarationKeyword := some "let" } =
        "let a = ((b, (c := d))[-1] if t else None) = f() = (x + y)\n" := by
  intro cond e e'
  have h : Associates ([.var "a", cond, .call "f" []] ++ [.operation (.var "x") '+' (.var "y")]) e := associates_iff.mpr rfl
  have h' : Associates ([.var "a", cond, .call "f" []] ++ [.operation (.var "x") '+' (.var "y")]) e' := associates_iff.mpr rfl
  obtain ⟨hsame, hinline, _⟩ := Associates.text_by_operands (by simp) h h' {}
  obtain ⟨_, _, _, hstatement⟩ := Associates.text_by_operands (by simp) h' h { declarationKeyword := some "let" }
  exact ⟨hinline.trans (by decide +kernel), hsame.symm, hstatement.trans (by decide +kernel)⟩

end Expr

end Offside
