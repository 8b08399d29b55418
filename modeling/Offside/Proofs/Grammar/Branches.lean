import Offside.Proofs.Grammar.Locality

/-!
# Which condition another branch belongs to

Conditions may be nested without braces, with another branch for some of them:
`if (c₁) if (c₂) … if (cₙ) s else e₁ else e₂ … else eₘ`. Each `else` belongs to the innermost condition that has no other branch
yet, wherever separators stand between the branches. A condition looks for its other branch behind separators before the condition
around it goes on, so the reading is followed from the inside out: the conditions that have another branch are read in front of
anything that ends an expression (`nested_reads_branched`), the ones around them in front of the end of the input
(`nested_reads`).
-/

namespace Offside

open Production Grammar

/-- Tokens that are an expression in a workspace, on their own: up to the end of the input they are read as `value`. They begin no
condition, and they close all their blocks. -/
structure Piece (w : Workspace) where
  tokens : List Token
  value : Expr
  alone : ∃ s t, Views w s tokens ∧ expression s = .ok value t ∧ Sees t []
  plain : .keyword .if_ ∉ tokens
  closed : closesBlocks 0 tokens = true

/-- What a condition asks, and the number of separators in front of its first branch. -/
structure Test (w : Workspace) where
  asked : Piece w
  gap : Nat

/-- Another branch of a condition, and the number of separators in front of `else` and behind it. -/
structure OtherBranch (w : Workspace) where
  before : Nat
  behind : Nat
  branch : Piece w

variable {w : Workspace}

/-- The tokens of a condition up to its first branch. -/
def Test.tokens (x : Test w) : List Token :=
  .keyword .if_ :: .punct '(' :: (x.asked.tokens ++ .punct ')' :: List.replicate x.gap .statementEnd)

/-- The tokens of another branch, with the separators around its first word. -/
def OtherBranch.tokens (x : OtherBranch w) : List Token :=
  List.replicate x.before .statementEnd ++ .keyword .else_ :: (List.replicate x.behind .statementEnd ++ x.branch.tokens)

/-- Conditions inside one another, each the first branch of the one around it, with `body` inside and the other branches behind. -/
def nestedTokens (tests : List (Test w)) (body : Piece w) (others : List (OtherBranch w)) : List Token :=
  tests.flatMap Test.tokens ++ (body.tokens ++ others.flatMap OtherBranch.tokens)

/-- Conditions inside one another. The innermost has the first of the other branches, the one around it the second, and so on as far
as there are branches. -/
def nested : List (Test w) → Piece w → List (OtherBranch w) → Expr
  | [], body, _ => body.value
  | test :: tests, body, others =>
    .cond test.asked.value (nested tests body others) (others[tests.length]?.map (·.branch.value))

/-- Branches beyond one for each condition are of no account. -/
theorem nested_append (tests : List (Test w)) (body : Piece w) {others : List (OtherBranch w)} (h : tests.length ≤ others.length)
    (more : List (OtherBranch w)) : nested tests body (others ++ more) = nested tests body others := by
  induction tests with
  | nil => rfl
  | cons test tests ih =>
    rw [nested, nested, ih (Nat.le_of_succ_le h), List.getElem?_append_left h]

/-! ## Reading one condition -/

variable {s : State} {us vs ys rest : List Token}

/-- Something stands there that is no separator. -/
def Begins (us : List Token) : Prop := ∃ token more, us = token :: more ∧ token ≠ .statementEnd

/-- An expression on its own is read in front of whatever ends an expression. -/
theorem Piece.reads (x : Piece w) (hrest : endsExpression rest = true) (h : Views w s (x.tokens ++ rest)) :
    ∃ t, expression s = .ok x.value t ∧ Views w t rest := by
  obtain ⟨s₀, t₀, hview, hok, hend⟩ := x.alone
  obtain ⟨us, t, ht, hlocal⟩ := local_expression hrest 0 ⟨hview, h, x.plain, 0, Nat.le_refl 0, x.closed⟩ hok
  obtain rfl := hlocal.first.sees.unique hend
  exact ⟨t, ht, hlocal.second⟩

/-- An operand that is read from the tokens of a source is an expression on its own. -/
def Piece.ofOperand {ts : List Token} {e : Expr} (h : ReadsOperand w ts e) (source : String)
    (hsource : (TokenStream.ofSource source).items.map (·.lexed) = ts.map .token) (plain : .keyword .if_ ∉ ts)
    (closed : closesBlocks 0 ts = true) : Piece w where
  tokens := ts
  value := e
  alone := by
    obtain ⟨s, _, hs, _⟩ := w.read_behind_start hsource
    have hall : Views w s (ts ++ []) := by rwa [List.append_nil]
    obtain ⟨t, ht, hend⟩ := h.expression rfl hall
    exact ⟨s, t, hs, ht, hend.sees⟩
  plain := plain
  closed := closed

/-- A piece begins with something other than a separator. -/
theorem Piece.begins (x : Piece w) (ts : List Token) : Begins (x.tokens ++ ts) := by
  obtain ⟨s, t, hview, hok, _⟩ := x.alone
  have hstart := State.startsOperand_current hview.sees hok
  cases htokens : x.tokens with
  | nil =>
    rw [htokens] at hview
    rw [hview.sees.current_nil] at hstart
    cases hstart
  | cons token more =>
    rw [htokens] at hview
    rw [hview.sees.current_eq] at hstart
    refine ⟨token, more ++ ts, rfl, ?_⟩
    rintro rfl
    cases hstart

/-- Passing over separators stops in front of the first other token. -/
theorem dropWhile_separators (n : Nat) {token : Token} (htoken : token ≠ .statementEnd) (ts : List Token) :
    (List.replicate n Token.statementEnd ++ token :: ts).dropWhile (· = .statementEnd) = token :: ts := by
  induction n with
  | zero => simp [htoken]
  | succ n ih => simpa [List.replicate_succ] using ih

/-- Separators in front of a branch are passed over. -/
theorem Views.skipSeparators (n : Nat) (hus : Begins us)
    (h : Views w s (List.replicate n .statementEnd ++ us)) : ∃ t, Production.skipStatementEnds s = .ok () t ∧ Views w t us := by
  obtain ⟨token, more, rfl, htoken⟩ := hus
  have hskip := h.skipStatementEnds
  rwa [dropWhile_separators n htoken] at hskip

/-- A condition with its first branch, and with what is found behind the separators that follow it. -/
theorem conditional_reads (x : Test w) (h : Views w s (x.tokens ++ us)) (hus : Begins us)
    {yes : Expr} {no : Option Expr} (hyes : ∀ s, Views w s us → ∃ t, expression s = .ok yes t ∧ Views w t vs)
    (hno : ∀ s, Views w s (vs.dropWhile (· = .statementEnd)) → ∃ t, otherwiseWith primary s = .ok no t ∧ Views w t ys)
    (hys : endsExpression ys = true) : ∃ t, expression s = .ok (.cond x.asked.value yes no) t ∧ Views w t ys := by
  have hview : Views w s (.keyword .if_ :: .punct '(' ::
      (x.asked.tokens ++ .punct ')' :: (List.replicate x.gap .statementEnd ++ us))) := by simpa [Test.tokens] using h
  obtain ⟨s₁, h₁, hs₁⟩ := hview.advance
  obtain ⟨s₂, h₂, hs₂⟩ := hs₁.expectPunct "'(' after 'if'"
  obtain ⟨s₃, h₃, hs₃⟩ := x.asked.reads rfl hs₂
  obtain ⟨s₄, h₄, hs₄⟩ := hs₃.expectPunct "')' after the if condition"
  obtain ⟨s₅, h₅, hs₅⟩ := hs₄.skipSeparators x.gap hus
  obtain ⟨s₆, h₆, hs₆⟩ := hyes s₅ hs₅
  obtain ⟨s₇, h₇, hs₇⟩ := hs₆.skipStatementEnds
  obtain ⟨t, h₈, ht⟩ := hno s₇ hs₇
  refine ⟨_, expression_of_primary ?_ (ht.note (.conditional no.isSome)).sees hys, ht.note _⟩
  rw [primary_eq, primaryWith, current_bind, hview.sees.current_eq]
  show conditionalWith primary s = _
  rw [expression] at h₃ h₆
  rw [conditionalWith, bind_of_ok h₁, bind_of_ok h₂, bind_of_ok h₃, bind_of_ok h₄, bind_of_ok h₅, bind_of_ok h₆, bind_of_ok h₇,
    bind_of_ok h₈]
  rfl

/-- The other branch that stands behind a first branch is found. -/
theorem OtherBranch.reads (x : OtherBranch w) (hrest : endsExpression rest = true)
    (h : Views w s ((x.tokens ++ rest).dropWhile (· = .statementEnd))) :
    ∃ t, otherwiseWith primary s = .ok (some x.branch.value) t ∧ Views w t rest := by
  have hview : Views w s (.keyword .else_ :: (List.replicate x.behind .statementEnd ++ (x.branch.tokens ++ rest))) := by
    rw [OtherBranch.tokens, List.append_assoc, List.cons_append, dropWhile_separators _ (by simp)] at h
    rwa [List.append_assoc] at h
  obtain ⟨s₁, h₁, hs₁⟩ := hview.advance
  obtain ⟨s₂, h₂, hs₂⟩ := hs₁.skipSeparators x.behind (x.branch.begins rest)
  obtain ⟨t, h₃, ht⟩ := x.branch.reads hrest hs₂
  refine ⟨t, ?_, ht⟩
  rw [expression] at h₃
  rw [otherwiseWith, current_bind, if_pos hview.sees.current_eq, bind_of_ok h₁, bind_of_ok h₂, map_eq_bind, bind_of_ok h₃]
  rfl

/-! ## Reading all of them -/

/-- An expression ends in front of another branch. -/
theorem OtherBranch.endsExpression_tokens (x : OtherBranch w) (rest : List Token) : endsExpression (x.tokens ++ rest) = true := by
  rw [OtherBranch.tokens]
  cases x.before <;> rfl

/-- Conditions around a piece begin with something other than a separator. -/
theorem nested_begins (tests : List (Test w)) (body : Piece w) (ts : List Token) :
    Begins (tests.flatMap Test.tokens ++ (body.tokens ++ ts)) := by
  cases tests with
  | nil => exact body.begins ts
  | cons test tests => exact ⟨.keyword .if_, _, rfl, by simp⟩

/-- If every condition has another branch, the outermost has the last one. -/
theorem nested_reads_branched (body : Piece w) {tests : List (Test w)} :
    ∀ {others : List (OtherBranch w)} {rest : List Token} {s : State}, others.length = tests.length → endsExpression rest = true →
      Views w s (tests.flatMap Test.tokens ++ (body.tokens ++ (others.flatMap OtherBranch.tokens ++ rest))) →
        ∃ t, expression s = .ok (nested tests body others) t ∧ Views w t rest := by
  induction tests with
  | nil =>
    intro others rest s hlength hrest h
    obtain rfl : others = [] := List.eq_nil_of_length_eq_zero hlength
    exact body.reads hrest h
  | cons test tests ih =>
    intro others rest s hlength hrest h
    obtain ⟨inner, last, rfl⟩ : ∃ inner last, others = inner ++ [last] := by
      rcases others.eq_nil_or_concat with rfl | ⟨inner, last, hconcat⟩
      · cases hlength
      · exact ⟨inner, last, by rw [hconcat, List.concat_eq_append]⟩
    have hinner : inner.length = tests.length := by simpa using hlength
    have hvalue : nested (test :: tests) body (inner ++ [last]) =
        .cond test.asked.value (nested tests body inner) (some last.branch.value) := by
      rw [nested, nested_append tests body (Nat.le_of_eq hinner.symm), ← hinner]
      simp
    rw [hvalue]
    simp only [List.flatMap_cons, List.flatMap_append, List.flatMap_nil, List.append_nil, List.append_assoc] at h
    refine conditional_reads test h (nested_begins tests body _) (fun s hs => ih hinner ?_ hs) ?_ hrest
    · exact last.endsExpression_tokens rest
    · exact fun s hs => last.reads hrest hs

/-- Where nothing follows, the conditions for which no branch is left have none. -/
theorem nested_reads (body : Piece w) {tests : List (Test w)} {others : List (OtherBranch w)} :
    ∀ {s : State}, others.length ≤ tests.length → Views w s (nestedTokens tests body others) →
      ∃ t, expression s = .ok (nested tests body others) t ∧ Views w t [] := by
  induction tests with
  | nil =>
    intro s hlength h
    exact nested_reads_branched body (Nat.le_zero.mp hlength) rfl (by simpa [nestedTokens] using h)
  | cons test tests ih =>
    intro s hlength h
    rcases Nat.eq_or_lt_of_le hlength with heq | hlt
    · exact nested_reads_branched body heq rfl (by simpa [nestedTokens] using h)
    · have hless : others.length ≤ tests.length := Nat.le_of_lt_succ hlt
      rw [nested, List.getElem?_eq_none hless]
      rw [nestedTokens, List.flatMap_cons, List.append_assoc] at h
      refine conditional_reads test h (nested_begins tests body _) (fun s hs => ih hless hs) (fun s hs => ⟨s, ?_, hs⟩) rfl
      rw [otherwiseWith, current_bind, if_neg (by simp [Sees.current_nil hs.sees])]
      rfl

/-- A source of nested conditions, with as many other branches behind them as there are conditions or fewer, is read without a
diagnostic. It is one expression: the innermost condition has the first of the other branches, the one around it the second, and so
on, and the outermost conditions have none if there are fewer branches. -/
theorem Workspace.read_nested (w : Workspace) (source : String) (tests : List (Test w)) (body : Piece w)
    (others : List (OtherBranch w))
    (hsource : (TokenStream.ofSource source).items.map (·.lexed) = (nestedTokens tests body others).map .token)
    (hothers : others.length ≤ tests.length) :
    (w.read source).diagnostics = [] ∧
      (w.read source).workspace = w.addGlobal ⟨w.globalPrototype, nested tests body others⟩ :=
  Workspace.read_expression hsource fun _ hs => nested_reads body hothers hs

/-- Three conditions with two other branches. The body is a block, and separators stand before a branch, before one `else` and
behind the other. -/
theorem Workspace.read_nested_three :
    let w := Workspace.new .empty {}
    let source := "if (a) if (b)\n if (c) {; x }\n else y else ; z"
    (w.read source).diagnostics = [] ∧ (w.read source).workspace = w.addGlobal ⟨w.globalPrototype, .cond (.var "a")
      (.cond (.var "b") (.cond (.var "c") (.block 1 [.var "x"]) (some (.var "y"))) (some (.var "z"))) none⟩ := by
  intro w source
  let piece (name : String) (h : (TokenStream.ofSource name).items.map (·.lexed) = [.token (.identifier name)]) : Piece w :=
    .ofOperand (readsOperand_var rfl name) name h (by simp) (by simp)
  let body : Piece w :=
    .ofOperand (@readsOperand_block w String (fun x => [.identifier x]) .var ["x"] fun x _ => readsOperand_var rfl x) "{;x}"
      (by decide +kernel) (by decide) (by decide)
  exact read_nested w source
    [⟨piece "a" (by decide +kernel), 0⟩, ⟨piece "b" (by decide +kernel), 1⟩, ⟨piece "c" (by decide +kernel), 0⟩] body
    [⟨1, 0, piece "y" (by decide +kernel)⟩, ⟨0, 1, piece "z" (by decide +kernel)⟩] (by decide +kernel) (by decide)

end Offside
