import Offside.Expr
import Offside.Proofs.Binary64.Magnitude
import Offside.Proofs.Grammar.Derivation

/-!
# Well-formed expressions

What is known of every expression that is read, for given classes of names of variables and of callees: its numbers are finite and
have no sign, its operators are those of the language, only an assignment to a variable is a declaration, and every block knows how
many blocks it is in.
-/

namespace Offside

namespace Expr

/-- Induction on an expression, with a hypothesis for every member of a list of expressions in it. -/
@[elab_as_elim]
theorem induct {P : Expr → Prop} (number : ∀ value, P (.number value)) (var : ∀ name, P (.var name))
    (binary : ∀ left op right declares, P left → P right → P (.binary left op right declares))
    (ret : ∀ value, P value → P (.ret value))
    (call : ∀ callee arguments, (∀ e ∈ arguments, P e) → P (.call callee arguments))
    (cond : ∀ test yes no, P test → P yes → (∀ e ∈ no, P e) → P (.cond test yes no))
    (block : ∀ depth statements, (∀ e ∈ statements, P e) → P (.block depth statements)) (e : Expr) : P e := by
  revert e
  refine @Expr.rec P (fun es => ∀ e ∈ es, P e) (fun o => ∀ e ∈ o, P e) number var binary ret call cond block ?_ ?_ ?_ ?_
  · intro e he
    cases he
  · intro first rest hfirst hrest e he
    rcases List.mem_cons.mp he with rfl | he
    · exact hfirst
    · exact hrest e he
  · intro e he
    cases he
  · intro inner hinner e he
    cases he
    exact hinner

/-- A well-formed expression inside `d` blocks, with names of variables in `V` and callees in `C`. -/
inductive Formed (V C : String → Prop) : Nat → Expr → Prop where
  | number {d : Nat} {value : Binary64} : value.IsPlain → Formed V C d (.number value)
  | var {d : Nat} {name : String} : V name → Formed V C d (.var name)
  | binary {d : Nat} {left right : Expr} {op : Char} {declares : Bool} : op ∈ Grammar.operatorSymbols →
      (declares = true → op = '=' ∧ ∃ name, left = .var name) → Formed V C d left → Formed V C d right →
      Formed V C d (.binary left op right declares)
  | ret {d : Nat} {value : Expr} : Formed V C d value → Formed V C d (.ret value)
  | call {d : Nat} {callee : String} {arguments : List Expr} : C callee → (∀ e ∈ arguments, Formed V C d e) →
      Formed V C d (.call callee arguments)
  | cond {d : Nat} {test yes : Expr} {no : Option Expr} : Formed V C d test → Formed V C d yes →
      (∀ e ∈ no, Formed V C d e) → Formed V C d (.cond test yes no)
  | block {d : Nat} {statements : List Expr} : (∀ e ∈ statements, Formed V C (d + 1) e) →
      Formed V C d (.block (d + 1) statements)

/-- Whether an expression takes one line as a statement. -/
def takesLine : Expr → Bool
  | cond _ _ _ | block _ _ => false
  | _ => true

namespace Formed

variable {V C : String → Prop} {d : Nat}

/-- Induction on the lines of a well-formed expression: what is neither a condition nor a block takes one. -/
@[elab_as_elim]
theorem inductLines {P : Expr → Prop} (line : ∀ {d : Nat} {e : Expr}, Formed V C d e → e.takesLine = true → P e)
    (cond : ∀ {d : Nat} {test yes : Expr} {no : Option Expr}, Formed V C d test → P yes → (∀ e ∈ no, P e) →
      P (.cond test yes no))
    (block : ∀ {depth : Nat} {statements : List Expr}, (∀ e ∈ statements, P e) → P (.block depth statements)) {e : Expr}
    (h : Formed V C d e) : P e := by
  induction h with
  | number hvalue => exact line (.number (d := 0) hvalue) rfl
  | var hname => exact line (.var (d := 0) hname) rfl
  | binary hop hdeclares hl hr _ _ => exact line (.binary hop hdeclares hl hr) rfl
  | ret hvalue _ => exact line (.ret hvalue) rfl
  | call hcallee harguments _ => exact line (.call hcallee harguments) rfl
  | cond htest _ _ _ hyes hno => exact cond htest hyes hno
  | block _ ih => exact block ih

/-- An operation on formed operands is formed. -/
theorem operation {left right : Expr} {op : Char} (hop : op ∈ Grammar.operatorSymbols) (hl : Formed V C d left)
    (hr : Formed V C d right) : Formed V C d (.operation left op right) :=
  .binary hop (by intro h; cases h) hl hr

/-- A declaration of an allowed name with a formed value is formed. -/
theorem declaration {name : String} {value : Expr} (hname : V name) (h : Formed V C d value) :
    Formed V C d (.declaration name value) :=
  .binary (by decide) (fun _ => ⟨rfl, name, rfl⟩) (.var hname) h

/-- The parts of a well-formed chain of assignments are well-formed. -/
theorem splitAssignment {e : Expr} (h : Formed V C d e) :
    ∀ {first rest : Expr}, e.splitAssignment? = some (first, rest) → Formed V C d first ∧ Formed V C d rest := by
  induction h with
  | @binary d left right op declares hop _ hl hr ihl _ =>
    intro first rest hs
    rw [Expr.splitAssignment?] at hs
    split at hs
    · split at hs
      · rename_i first' rest' hleft
        cases hs
        obtain ⟨hfirst, hrest⟩ := ihl hleft
        exact ⟨hfirst, .operation (by decide) hrest hr⟩
      · cases hs
        exact ⟨hl, hr⟩
    · cases hs
  | _ => intro first rest hs; cases hs

end Formed

end Expr

end Offside
