import Offside.Proofs.Layout.Chain

/-!
# What a line says

An expression is written on one line as a phrase of a smaller language. There is one phrase for the value that is missing, be it the
other branch of a condition or the value of an empty block; a block of one statement is that statement; a chain of assignments assigns
from its last operand to its first; and nothing is left of depths and declarations. `Expr.normal` is the phrase of an expression, and
the text of an expression is that of its phrase.
-/

namespace Offside

/-- What an expression on one line says. -/
inductive Phrase where
  /-- The value where there is none. -/
  | none
  | number (value : Binary64)
  | var (name : String)
  | operation (left : Phrase) (op : Char) (right : Phrase)
  | assign (target value : Phrase)
  | ret (value : Phrase)
  | call (callee : String) (arguments : List Phrase)
  | cond (test yes no : Phrase)
  /-- Two statements or more, with the value of the last. -/
  | sequence (first second : Phrase) (rest : List Phrase)
deriving Repr, Inhabited

namespace Phrase

/-- The phrase for the operands of a chain of assignments: each but the last is assigned the value of those behind it. -/
def assigned : List Phrase → Phrase
  | [] => none
  | [value] => value
  | target :: operands => assign target (assigned operands)

theorem assigned_cons_cons (target operand : Phrase) (operands : List Phrase) :
    assigned (target :: operand :: operands) = assign target (assigned (operand :: operands)) := rfl

/-- The phrase for the statements of a block. -/
def ofStatements : List Phrase → Phrase
  | [] => none
  | [statement] => statement
  | first :: second :: rest => sequence first second rest

mutual

/-- The text of a phrase. -/
def text : Phrase → String
  | none => "None"
  | number value => value.literal
  | var name => name
  | operation left op right => "(" ++ left.text ++ " " ++ op.toString ++ " " ++ right.text ++ ")"
  | assign target value => "(" ++ target.text ++ " := " ++ value.text ++ ")"
  | ret value => "return " ++ value.text
  | call callee arguments => callee ++ "(" ++ ", ".intercalate (textAll arguments) ++ ")"
  | cond test yes no => "(" ++ yes.text ++ " if " ++ test.text ++ " else " ++ no.text ++ ")"
  | sequence first second rest => "(" ++ ", ".intercalate (first.text :: second.text :: textAll rest) ++ ")[-1]"

/-- The texts of several phrases. -/
def textAll : List Phrase → List String
  | [] => []
  | p :: ps => p.text :: textAll ps

end

/-- Several phrases are written one by one. -/
theorem textAll_eq_map (ps : List Phrase) : textAll ps = ps.map text := by
  induction ps with
  | nil => rfl
  | cons p ps ih => rw [textAll, ih, List.map_cons]

/-- A chain of assignments is written as nested assignment expressions. -/
theorem text_assigned {ps : List Phrase} (hne : ps ≠ []) : (assigned ps).text = nestedAssignment (ps.map text) := by
  induction ps with
  | nil => exact absurd rfl hne
  | cons p ps ih =>
    cases ps with
    | nil => rfl
    | cons q qs =>
      have hrest := ih (by simp)
      rw [assigned_cons_cons, text, hrest]
      simp [nestedAssignment_cons_cons, String.append_assoc]

/-- A block is written as the values of its statements, of which the last one counts. -/
theorem text_ofStatements (ps : List Phrase) : (ofStatements ps).text = lastValue (ps.map text) := by
  unfold ofStatements
  split
  · rfl
  · rfl
  · simp [text, textAll_eq_map, lastValue]

end Phrase

namespace Expr

mutual

/-- The phrases of the operands of a chain of assignments; an expression that is not an assignment is its own only operand. -/
def phrases : Expr → List Phrase
  | number value => [.number value]
  | var name => [.var name]
  | binary left op right _ =>
    if op = '=' then left.phrases ++ right.phrases else [.operation (.assigned left.phrases) op (.assigned right.phrases)]
  | ret value => [.ret (.assigned value.phrases)]
  | call callee arguments => [.call callee (normalAll arguments)]
  | cond test yes none => [.cond (.assigned test.phrases) (.assigned yes.phrases) .none]
  | cond test yes (some no) => [.cond (.assigned test.phrases) (.assigned yes.phrases) (.assigned no.phrases)]
  | block _ statements => [.ofStatements (normalAll statements)]

/-- The phrases of several expressions. -/
def normalAll : List Expr → List Phrase
  | [] => []
  | e :: es => .assigned e.phrases :: normalAll es

end

/-- The phrase of an expression. -/
def normal (e : Expr) : Phrase := .assigned e.phrases

/-- Several expressions have their phrases one by one. -/
theorem normalAll_eq_map (es : List Expr) : normalAll es = es.map normal := by
  induction es with
  | nil => rfl
  | cons e es ih => rw [normalAll, ih, List.map_cons, normal]

/-- A chain of assignments has the phrases of its operands, which are no chains. -/
theorem phrases_eq_map (e : Expr) : e.phrases = e.chainOperands.map normal := by
  induction e using Expr.induct with
  | binary left op right declares hl hr =>
    rw [chainOperands]
    split
    case isTrue hop => rw [phrases, if_pos hop, hl, hr, List.map_append]
    case isFalse hop => simp [normal, phrases, hop, Phrase.assigned]
  | cond test yes no => cases no <;> simp [chainOperands, normal, phrases, Phrase.assigned]
  | _ => simp [chainOperands, normal, phrases, Phrase.assigned]

/-- A chain has an operand at least. -/
theorem phrases_ne_nil (e : Expr) : e.phrases ≠ [] := by
  rw [phrases_eq_map, ne_eq, List.map_eq_nil_iff]
  exact e.chainOperands_ne_nil

/-- The phrase of an assignment is made of those of its operands, from the last to the first. -/
theorem Associates.normal_eq {os : List Expr} {e : Expr} (h : Associates os e) : e.normal = .assigned (os.map normal) := by
  rw [normal, phrases_eq_map, associates_iff.mp h]

/-- The operands are written as their phrases. -/
theorem operands_eq_text (e : Expr) : e.operands = e.phrases.map Phrase.text := by
  have hone : ∀ e : Expr, e.operands = e.phrases.map Phrase.text → nestedAssignment e.operands = (Phrase.assigned e.phrases).text := by
    intro e h
    rw [Phrase.text_assigned e.phrases_ne_nil, h]
  have hall : ∀ es : List Expr, (∀ e ∈ es, e.operands = e.phrases.map Phrase.text) →
      inlineAll es = (normalAll es).map Phrase.text := by
    intro es h
    rw [inlineAll_eq_map, normalAll_eq_map, List.map_map]
    exact List.map_congr_left fun e he => hone e (h e he)
  induction e using Expr.induct with
  | number | var => rfl
  | binary left op right declares hl hr =>
    rw [operands, phrases]
    split
    case isTrue => rw [hl, hr, List.map_append]
    case isFalse => rw [hone left hl, hone right hr, List.map_singleton, Phrase.text]
  | ret value ih => rw [operands, phrases, hone value ih, List.map_singleton, Phrase.text]
  | call callee arguments ih =>
    rw [operands, phrases, hall arguments ih, List.map_singleton, Phrase.text, Phrase.textAll_eq_map]
  | cond test yes no htest hyes hno =>
    cases no with
    | none => simp [operands, phrases, hone test htest, hone yes hyes, Phrase.text, String.append_assoc]
    | some no =>
      rw [operands, phrases, hone test htest, hone yes hyes, hone no (hno no rfl), List.map_singleton, Phrase.text]
  | block depth statements ih =>
    rw [operands, phrases, hall statements ih, List.map_singleton, Phrase.text_ofStatements]

/-- The text of an expression on one line is that of its phrase. -/
theorem inline_eq_text (e : Expr) : e.inline = e.normal.text := by
  rw [inline, normal, Phrase.text_assigned e.phrases_ne_nil, operands_eq_text]

end Expr

end Offside
