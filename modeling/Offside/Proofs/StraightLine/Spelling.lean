import Offside.Proofs.StraightLine.Basic
import Offside.Proofs.Token.Scan

/-!
# The tokens of straight-line code

The text of a straight-line statement holds the tokens one would write down from the tree: every operation in parentheses, arguments
with commas between them, and the operands of a chain of assignments with `=` between them.
-/

namespace Offside

/-- The text of a callee holds its name, or its name, a point and its member. -/
theorem spells_callee {callee : String} (h : isCallee callee = true) :
    Spells (endsWord · = true) callee (calleeTokens callee) := by
  rcases isCallee_iff.mp h with hname | ⟨first, member, hfirst, hmember, rfl⟩
  · rw [calleeTokens_name hname]
    exact .word hname
  · rw [calleeTokens_member hfirst]
    have hpoint : Spells (fun _ => True) "." [.punct '.'] := .mark (by decide) (by decide) (by decide)
    have hends : ∀ c ∈ ['.'].head?, Lexeme.continuesName c = false := by
      rintro c ⟨⟩
      decide
    exact ((Spells.name hfirst).append hpoint fun _ _ => hends).and_then (.word hmember)

namespace Expr

mutual

/-- The tokens of an arithmetic expression. -/
def tokens : Expr → List Token
  | number value => [.number value]
  | var name => [.identifier name]
  | binary left op right _ => .punct '(' :: (left.tokens ++ .punct op :: (right.tokens ++ [.punct ')']))
  | call callee arguments => calleeTokens callee ++ .punct '(' :: (Token.joined ',' (tokensAll arguments) ++ [.punct ')'])
  | _ => []

/-- The tokens of several arithmetic expressions. -/
def tokensAll : List Expr → List (List Token)
  | [] => []
  | e :: es => e.tokens :: tokensAll es

end

/-- The tokens of a straight-line statement. -/
def statementTokens (e : Expr) : List Token := Token.joined '=' (e.chainOperands.map tokens)

theorem tokensAll_eq_map (es : List Expr) : tokensAll es = es.map tokens := by
  induction es with
  | nil => rfl
  | cons e es ih => rw [tokensAll, ih, List.map_cons]

/-- The operators of arithmetic are marks. -/
theorem isMark_of_arithmetic : ∀ op ∈ arithmeticSymbols, Lexeme.isMark op = true := by
  decide

theorem spells_open : Spells (fun _ => True) "(" [.punct '('] := .mark (by decide) (by decide) (by decide)

/-- A parenthesis ends a word. -/
theorem spells_close : Spells (endsWord · = true) ")" [.punct ')'] := by
  have hclose : Spells (fun _ => True) ")" [.punct ')'] := .mark (by decide) (by decide) (by decide)
  exact fun rest us _ hrest => hclose rest us trivial hrest

/-- An operator is written with a space on both sides. -/
theorem spells_operator {op : Char} (h : op ∈ arithmeticSymbols) : Spells (fun _ => True) (" " ++ op.toString ++ " ") [.punct op] :=
  .spaced (isMark_of_arithmetic op h) (by simp [Char.toString])

/-- Two pieces of text in parentheses, with something between them that begins with a blank. -/
theorem spells_enclosed {a between b : String} {ts us vs : List Token} (ha : Spells (endsWord · = true) a ts)
    (hbetween : Spells (fun _ => True) between us) (hblank : between.toList.head? = some ' ')
    (hb : Spells (endsWord · = true) b vs) :
    Spells (endsWord · = true) ("(" ++ (a ++ (between ++ (b ++ ")")))) (.punct '(' :: (ts ++ (us ++ (vs ++ [.punct ')'])))) := by
  have hend := hbetween.and_then (hb.and_end spells_close (c := ')') (by decide) (by decide))
  exact spells_open.and_then (ha.and_end hend (c := ' ') (by simp [hblank]) (by decide))

/-- Pieces of text with commas between them. -/
theorem spells_listed {α : Type} {text : α → String} {tokens : α → List Token} {xs : List α}
    (h : ∀ x ∈ xs, Spells (endsWord · = true) (text x) (tokens x)) :
    Spells (endsWord · = true) (", ".intercalate (xs.map text)) (Token.joined ',' (xs.map tokens)) := by
  have hcomma : Spells (fun _ => True) ", " [.punct ','] := .mark_blank (by decide) (by decide)
  exact hcomma.intercalate (d := ',') (by decide) (by decide) h

/-- A call of what can be called. -/
theorem spells_call {callee : String} (hcallee : isCallee callee = true) {α : Type} {text : α → String} {tokens : α → List Token}
    {xs : List α} (h : ∀ x ∈ xs, Spells (endsWord · = true) (text x) (tokens x)) :
    Spells (endsWord · = true) (callee ++ ("(" ++ (", ".intercalate (xs.map text) ++ ")")))
      (calleeTokens callee ++ .punct '(' :: (Token.joined ',' (xs.map tokens) ++ [.punct ')'])) := by
  have hend := spells_open.and_then ((spells_listed h).and_end spells_close (c := ')') (by decide) (by decide))
  exact (spells_callee hcallee).and_end hend (c := '(') (by simp) (by decide)

/-- The text of an arithmetic expression holds its tokens. -/
theorem spells_inline {e : Expr} (h : e.isArithmetic = true) : Spells (endsWord · = true) e.inline e.tokens := by
  induction e using Expr.induct with
  | number value => exact .literal (of_decide_eq_true h)
  | var name => exact .word h
  | binary left op right declares hl hr =>
    simp only [isArithmetic, Bool.and_eq_true, List.contains_iff_mem] at h
    obtain ⟨⟨hop, hleft⟩, hright⟩ := h
    have htext : (binary left op right declares).inline =
        "(" ++ (left.inline ++ ((" " ++ op.toString ++ " ") ++ (right.inline ++ ")"))) := by
      simp only [inline, operands, if_neg (assignment_not_arithmetic op hop), nestedAssignment, String.append_assoc]
    rw [htext]
    exact spells_enclosed (hl hleft) (spells_operator hop) (by simp) (hr hright)
  | call callee arguments ih =>
    rw [isArithmetic, Bool.and_eq_true, allArithmetic_iff] at h
    have htext : (call callee arguments).inline = callee ++ ("(" ++ (", ".intercalate (arguments.map inline) ++ ")")) := by
      simp [inline, operands, nestedAssignment, inlineAll_eq_map, String.append_assoc]
    rw [htext, tokens, tokensAll_eq_map]
    exact spells_call h.1 fun e he => ih e he (h.2 e he)
  | _ => cases h

/-- The text of a straight-line statement holds its tokens. -/
theorem spells_statementText {e : Expr} (h : e.isStraightLine = true) :
    Spells (endsWord · = true) (e.statementText {}) e.statementTokens := by
  have hequals : Spells (fun _ => True) " = " [.punct '='] := .spaced (by decide) (by decide)
  rw [statementText_eq, operands_eq_map]
  exact hequals.intercalate (d := ' ') (by decide) (by decide) fun o ho => spells_inline (isArithmetic_of_mem_chainOperands h o ho)

/-- An expression begins with a token that is no separator. -/
theorem tokens_starts {e : Expr} (h : e.isArithmetic = true) : ∃ t ts, e.tokens = t :: ts ∧ t ≠ .statementEnd := by
  cases e with
  | number | var | binary => exact ⟨_, _, rfl, by simp⟩
  | call callee arguments =>
    rw [isArithmetic, Bool.and_eq_true] at h
    rcases isCallee_iff.mp h.1 with hname | ⟨first, member, hfirst, _, rfl⟩
    · exact ⟨_, _, by rw [tokens, calleeTokens_name hname]; rfl, by simp⟩
    · exact ⟨_, _, by rw [tokens, calleeTokens_member hfirst]; rfl, by simp⟩
  | ret | cond | block => cases h

/-- A statement begins with a token that is no separator. -/
theorem statementTokens_starts {e : Expr} (h : e.isStraightLine = true) :
    ∃ t ts, e.statementTokens = t :: ts ∧ t ≠ .statementEnd := by
  obtain ⟨first, rest, heq⟩ := List.exists_cons_of_ne_nil e.chainOperands_ne_nil
  obtain ⟨t, ts, htokens, ht⟩ := tokens_starts (isArithmetic_of_mem_chainOperands h first (by simp [heq]))
  exact ⟨t, _, by rw [statementTokens, heq, List.map_cons, Token.joined, htokens]; rfl, ht⟩

/-- Statements of one line, each with a line terminator behind it. -/
def statementsText : List Expr → List Char
  | [] => []
  | e :: es => (e.statementText {}).toList ++ '\n' :: statementsText es

/-- The tokens of straight-line statements, with a separator behind each. -/
def statementsTokens : List Expr → List Token
  | [] => []
  | e :: es => e.statementTokens ++ .statementEnd :: statementsTokens es

/-- Straight-line statements on lines of their own hold their tokens. Separators behind the last one make no difference. -/
theorem scans_statements {es : List Expr} (h : ∀ e ∈ es, e.isStraightLine = true) (hne : es ≠ []) (tail : List Char)
    (htail : ∀ c ∈ tail, Lexeme.isSeparator c = true) :
    Scans (statementsText es ++ tail) ((statementsTokens es).map .token) := by
  have hline : Lexeme.isSeparator '\n' = true := by decide
  induction es with
  | nil => exact absurd rfl hne
  | cons e es ih =>
    have hspells := spells_statementText (h e List.mem_cons_self)
    rw [statementsText, statementsTokens, List.append_assoc, List.map_append]
    refine hspells _ _ (by rfl) ?_
    cases es with
    | nil =>
      have hend : Scans ('\n' :: tail ++ []) [.token .statementEnd] := by
        refine Scans.separators '\n' tail (fun d hd => ?_) (fun d hd => by cases hd) .nil
        rcases List.mem_cons.mp hd with rfl | hd
        · exact hline
        · exact htail d hd
      rwa [List.append_nil] at hend
    | cons second rest =>
      have hrest := ih (fun o ho => h o (List.mem_cons_of_mem e ho)) (by simp)
      obtain ⟨t, ts, htokens, ht⟩ := statementTokens_starts (h second (by simp))
      have hhead : ∀ d ∈ (statementsText (second :: rest) ++ tail).head?, Lexeme.isSeparator d = false := by
        rw [statementsTokens, htokens] at hrest
        exact Scans.head_of_token hrest ht
      exact Scans.separators '\n' [] (by simp [hline]) hhead hrest

end Expr

end Offside
