import Offside.Proofs.Grammar.Rounds
import Offside.Proofs.Token.Callee
import Offside.Proofs.Token.Scan

/-!
# Expressions read from known tokens

Where the tokens `ts` are to come, an operand is read, and it is known which one: `ReadsOperand w ts e`. What stands in parentheses need
only be read in front of the closing one: `ReadsEnclosed w ts e`. Here is one lemma for each way to put operands together, for tokens
and expressions that are given by functions of anything.
-/

namespace Offside

open Production Grammar

/-- A state that sees the tokens `ts` and has the workspace `w`. -/
structure Views (w : Workspace) (s : State) (ts : List Token) : Prop where
  sees : Sees s ts
  workspace : s.workspace = w

namespace Views

variable {w : Workspace} {s t : State} {ts us : List Token} {token : Token}

/-- Steps keep the workspace, so the tokens that are seen behind them are viewed with it. -/
theorem of_steps (h : Views w s ts) (hsteps : Steps s t) (ht : Sees t us) : Views w t us :=
  ⟨ht, hsteps.workspace_eq.trans h.workspace⟩

/-- What a production leaves behind has the workspace that was there before. -/
theorem of_ok {α : Type} {p : Production α} {a : α} (h : Views w s ts) (hp : ∀ n, Agree n p p) (hok : p s = .ok a t)
    (ht : Sees t us) : Views w t us := by
  have hfollows := (hp s.remaining s (Nat.le_refl _)).follows
  rw [hok] at hfollows
  exact h.of_steps hfollows ht

/-- Reading a token leaves the ones behind it. -/
theorem advance (h : Views w s (token :: ts)) : ∃ t, Production.advance s = .ok () t ∧ Views w t ts := by
  obtain ⟨t, ht, hs⟩ := h.sees.advance
  exact ⟨t, ht, h.of_ok (fun _ => .advance) ht hs⟩

/-- However a token has been read, the ones behind it are viewed. -/
theorem advance_ok (h : Views w s (token :: ts)) (ha : Production.advance s = .ok () t) : Views w t ts :=
  h.of_ok (fun _ => .advance) ha (h.sees.advance_ok ha)

/-- A token is read only where it stands. -/
theorem of_advance (h : Views w s ts) (hc : s.current = token) (hend : token ≠ .endOfInput) (ha : Production.advance s = .ok () t) :
    ∃ us, ts = token :: us ∧ Views w t us := by
  obtain ⟨us, rfl, _⟩ := sees_of_advance h.sees hc hend ha
  exact ⟨us, rfl, h.advance_ok ha⟩

/-- An expected character that was read stood first among the tokens. -/
theorem expectPunct_ok {c : Char} {expected : String} (h : Views w s ts) (hp : Production.expectPunct c expected s = .ok () t) :
    ∃ us, ts = .punct c :: us ∧ Views w t us := by
  obtain ⟨us, rfl, hs⟩ := h.sees.expectPunct_ok hp
  exact ⟨us, rfl, h.of_ok (fun _ => .expectPunct c expected) hp hs⟩

/-- A name that was read stood first among the tokens. -/
theorem identifier_ok {name expected : String} (h : Views w s ts) (hp : Production.identifier expected s = .ok name t) :
    ∃ us, ts = .identifier name :: us ∧ Views w t us := by
  obtain ⟨us, rfl, hs⟩ := h.sees.identifier_ok hp
  exact ⟨us, rfl, h.of_ok (fun _ => .identifier expected) hp hs⟩

/-- A character that stands first is read where it is expected. -/
theorem expectPunct {c : Char} (h : Views w s (.punct c :: ts)) (expected : String) :
    ∃ t, Production.expectPunct c expected s = .ok () t ∧ Views w t ts := by
  obtain ⟨t, ht, hs⟩ := h.sees.expectPunct expected
  exact ⟨t, ht, h.of_ok (fun _ => .expectPunct c expected) ht hs⟩

/-- The separators in front are passed over, and no token behind them. -/
theorem skipStatementEnds (h : Views w s ts) :
    ∃ t, Production.skipStatementEnds s = .ok () t ∧ Views w t (ts.dropWhile (· = .statementEnd)) := by
  obtain ⟨t, ht, hs⟩ := h.sees.skipStatementEnds
  exact ⟨t, ht, h.of_ok (fun _ => .skipStatementEnds) ht hs⟩

/-- However separators have been passed over, the tokens from the first other one on are viewed. -/
theorem skipStatementEnds_ok (h : Views w s ts) (hp : Production.skipStatementEnds s = .ok () t) :
    Views w t (ts.dropWhile (· = .statementEnd)) := by
  obtain ⟨t', ht', hview⟩ := h.skipStatementEnds
  rw [hp] at ht'
  cases ht'
  exact hview

theorem note (h : Views w s ts) (event : Event) : Views w (s.note event) ts := ⟨h.sees.note event, h.workspace⟩

theorem enter (h : Views w s ts) : Views { w with depth := w.depth + 1 } s.enter ts :=
  ⟨h.sees.enter, by rw [State.enter, h.workspace]⟩

theorem leave (h : Views { w with depth := w.depth + 1 } s ts) : Views w s.leave ts :=
  ⟨h.sees.leave, by rw [State.leave, h.workspace]; rfl⟩

end Views

/-- Whether an operand ends where the given tokens follow: a name there is neither called nor has it a member. -/
def endsOperand (ts : List Token) : Bool := ts.head?.all fun t => t != .punct '(' && t != .punct '.'

/-- Whether an expression ends where the given tokens follow. -/
def endsExpression (ts : List Token) : Bool := endsOperand ts && ts.head?.all fun t => (Operator.ofToken? t).isNone

/-- An operand is read where the tokens `ts` are to come, and it is `e`. -/
def ReadsOperand (w : Workspace) (ts : List Token) (e : Expr) : Prop :=
  ∀ (s : State) (rest : List Token), endsOperand rest = true → Views w s (ts ++ rest) →
    ∃ t, primary s = .ok e t ∧ Views w t rest

/-- An expression is read where the tokens `ts` are to come in front of a closing parenthesis, and it is `e`. -/
def ReadsEnclosed (w : Workspace) (ts : List Token) (e : Expr) : Prop :=
  ∀ (s : State) (rest : List Token), Views w s (ts ++ .punct ')' :: rest) →
    ∃ t, expression s = .ok e t ∧ Views w t (.punct ')' :: rest)

/-! ## Chains of operators -/

/-- An operand ends in front of an operator. -/
theorem endsOperand_operator : ∀ op ∈ Operator.all, ∀ ts, endsOperand (.punct op.symbol :: ts) = true := by
  intro op hop ts
  have hall : ∀ op ∈ Operator.all, endsOperand [.punct op.symbol] = true := by decide
  exact hall op hop

/-- Where an expression ends no operator stands. -/
theorem Sees.no_operator {s : State} {rest : List Token} (h : Sees s rest) (hrest : endsExpression rest = true) :
    Operator.ofToken? s.current = none := by
  cases rest with
  | nil => rw [h.current_nil]; rfl
  | cons token rest =>
    rw [h.current_eq]
    simp only [endsExpression, Bool.and_eq_true] at hrest
    exact Option.isNone_iff_eq_none.mp hrest.2

/-- Where an expression ends, its last operand ends. -/
theorem endsOperand_of_endsExpression {rest : List Token} (h : endsExpression rest = true) : endsOperand rest = true := by
  rw [endsExpression, Bool.and_eq_true] at h
  exact h.1

section

variable {w : Workspace} {ts rest : List Token} {e : Expr} {s : State} {α : Type} {tokens : α → List Token} {value : α → Expr}

/-- The tokens of operators with an operand behind each. -/
def chainTokens (tokens : α → List Token) : List (Operator × α) → List Token
  | [] => []
  | x :: xs => .punct x.1.symbol :: (tokens x.2 ++ chainTokens tokens xs)

/-- An operand ends in front of further operators, and in front of what follows them. -/
theorem endsOperand_chainTokens (tokens : α → List Token) {xs : List (Operator × α)} (hxs : ∀ x ∈ xs, x.1 ∈ Operator.all)
    (hrest : endsOperand rest = true) : endsOperand (chainTokens tokens xs ++ rest) = true := by
  cases xs with
  | nil => exact hrest
  | cons x xs => exact endsOperand_operator x.1 (hxs x List.mem_cons_self) _

/-- Operators and operands are read one after another, up to where the expression ends. -/
theorem chain_reads (hrest : endsExpression rest = true) {xs : List (Operator × α)} (hops : ∀ x ∈ xs, x.1 ∈ Operator.all)
    (hxs : ∀ x ∈ xs, ReadsOperand w (tokens x.2) (value x.2)) :
    ∀ {s : State}, Views w s (chainTokens tokens xs ++ rest) →
      ∃ t, chain primary 0 s = .ok (xs.map fun x => (x.1, value x.2)) t ∧ Views w t rest := by
  induction xs with
  | nil =>
    intro s h
    refine ⟨s, chain_stop consumes_primary fun op hop => ?_, h⟩
    rw [Sees.no_operator h.sees hrest] at hop
    cases hop
  | cons x xs ih =>
    intro s h
    rw [chainTokens, List.cons_append, List.append_assoc] at h
    have hops' := fun y hy => hops y (List.mem_cons_of_mem x hy)
    have hop : Operator.ofToken? s.current = some x.1 := by
      rw [h.sees.current_eq, Operator.ofToken?_punct_symbol x.1 (hops x List.mem_cons_self)]
    obtain ⟨s₁, h₁, hs₁⟩ := h.advance
    have hends := endsOperand_chainTokens tokens hops' (endsOperand_of_endsExpression hrest)
    obtain ⟨s₂, h₂, hs₂⟩ := hxs x List.mem_cons_self s₁ _ hends hs₁
    obtain ⟨t, h₃, ht⟩ := ih hops' (fun y hy => hxs y (List.mem_cons_of_mem x hy)) hs₂
    refine ⟨t, ?_, ht⟩
    rw [chain_next consumes_primary hop (Nat.zero_le _), bind_of_ok h₁, bind_of_ok h₂, bind_of_ok h₃]
    rfl

/-- Operators and operands are folded onto what stands in front of them. -/
theorem operations_reads (value : α → Expr) (hrest : endsExpression rest = true) {xs : List (Operator × α)}
    (hops : ∀ x ∈ xs, x.1 ∈ Operator.all) (hxs : ∀ x ∈ xs, ReadsOperand w (tokens x.2) (value x.2))
    (h : Views w s (chainTokens tokens xs ++ rest)) {first : Expr}
    (he : Grouped first (xs.map fun x => (x.1, value x.2)) e) :
    ∃ t, operationsWith primary 0 first s = .ok e t ∧ Views w t rest := by
  obtain ⟨t, h₁, ht⟩ := chain_reads hrest hops hxs h
  obtain ⟨e', h₂, he'⟩ := operationsWith_of_chain consumes_primary first h₁
  exact ⟨t, by rw [h₂, he.unique he'], ht⟩

/-- An operand and the operators behind it are read as one expression. -/
theorem expression_reads (value : α → Expr) (hrest : endsExpression rest = true) {first : Expr}
    (hfirst : ReadsOperand w ts first) (xs : List (Operator × α)) (hops : ∀ x ∈ xs, x.1 ∈ Operator.all)
    (hxs : ∀ x ∈ xs, ReadsOperand w (tokens x.2) (value x.2))
    (h : Views w s (ts ++ (chainTokens tokens xs ++ rest))) (he : Grouped first (xs.map fun x => (x.1, value x.2)) e) :
    ∃ t, expression s = .ok e t ∧ Views w t rest := by
  have hends := endsOperand_chainTokens tokens hops (endsOperand_of_endsExpression hrest)
  obtain ⟨s₁, h₁, hs₁⟩ := hfirst s _ hends h
  obtain ⟨t, h₂, ht⟩ := operations_reads value hrest hops hxs hs₁ he
  refine ⟨t, ?_, ht⟩
  rw [expression, expressionWith, bind_of_ok h₁, h₂]

/-- Where an operand has been read that no operator follows, it is the expression. -/
theorem expression_of_primary {t : State} (h : primary s = .ok e t) (ht : Sees t rest) (hrest : endsExpression rest = true) :
    expression s = .ok e t := by
  have hstop : chain primary 0 t = .ok [] t := by
    refine chain_stop consumes_primary fun op hop => ?_
    rw [ht.no_operator hrest] at hop
    cases hop
  obtain ⟨e', h', he'⟩ := operationsWith_of_chain consumes_primary e hstop
  rw [expression, expressionWith, bind_of_ok h, h', (Grouped.operand e).unique he']

/-- An operand with no operator behind it is read as an expression. -/
theorem ReadsOperand.expression (h : ReadsOperand w ts e) (hrest : endsExpression rest = true) (hview : Views w s (ts ++ rest)) :
    ∃ t, Grammar.expression s = .ok e t ∧ Views w t rest := by
  obtain ⟨t, ht, hview'⟩ := h s rest (endsOperand_of_endsExpression hrest) hview
  exact ⟨t, expression_of_primary ht hview'.sees hrest, hview'⟩

/-- Only a token that begins an operand stands where an expression is read. -/
theorem State.startsOperand_current {t : State} (hs : Sees s ts) (h : Grammar.expression s = .ok e t) :
    startsOperand s.current = true := by
  obtain ⟨us, _, hd⟩ := sound_expression hs h
  obtain ⟨token, rest, rfl, hstart⟩ := hd.expression_starts
  rw [hs.current_eq]
  exact hstart

/-! ## Arguments and references -/

theorem Token.joined_cons_cons (c : Char) (ts us : List Token) (more : List (List Token)) :
    Token.joined c (ts :: us :: more) = ts ++ .punct c :: Token.joined c (us :: more) := by
  simp [Token.joined]

/-- Operands with commas between them are read up to the closing parenthesis. -/
theorem items_reads {xs : List α} (hne : xs ≠ []) (hxs : ∀ x ∈ xs, ReadsOperand w (tokens x) (value x)) :
    ∀ {n : Nat} {s : State}, xs.length ≤ n → Views w s (Token.joined ',' (xs.map tokens) ++ .punct ')' :: rest) →
      ∃ t, itemsUpTo expression n s = .ok (xs.map value) t ∧ Views w t rest := by
  induction xs with
  | nil => exact absurd rfl hne
  | cons x xs ih =>
    intro n s hn h
    have hx := hxs x List.mem_cons_self
    obtain ⟨n, rfl⟩ : ∃ m, n = m + 1 := ⟨n - 1, by simp at hn; omega⟩
    cases xs with
    | nil =>
      have hview : Views w s (tokens x ++ .punct ')' :: rest) := by simpa [Token.joined] using h
      obtain ⟨s₁, h₁, hs₁⟩ := hx.expression (by rfl) hview
      obtain ⟨t, h₂, ht⟩ := hs₁.advance
      refine ⟨t, ?_, ht⟩
      rw [itemsUpTo, bind_of_ok h₁, current_bind, hs₁.sees.current_eq, if_neg (by simp [Token.isPunct]), current_bind,
        hs₁.sees.current_eq, if_pos (by rfl), bind_of_ok h₂]
      rfl
    | cons y xs =>
      rw [List.map_cons, List.map_cons, Token.joined_cons_cons, ← List.map_cons, List.append_assoc, List.cons_append] at h
      obtain ⟨s₁, h₁, hs₁⟩ := hx.expression (by rfl) h
      obtain ⟨s₂, h₂, hs₂⟩ := hs₁.advance
      obtain ⟨t, h₃, ht⟩ := ih (by simp) (fun z hz => hxs z (List.mem_cons_of_mem x hz)) (by simp at hn ⊢; omega) hs₂
      refine ⟨t, ?_, ht⟩
      rw [itemsUpTo, bind_of_ok h₁, current_bind, hs₁.sees.current_eq, if_pos (by rfl), bind_of_ok h₂, bind_of_ok h₃]
      rfl

/-- There is a separator for every list but the first, so the bound on a loop over them suffices. -/
theorem length_le_joined (c : Char) (tss : List (List Token)) : tss.length ≤ (Token.joined c tss).length + 1 := by
  induction tss with
  | nil => simp
  | cons ts tss ih =>
    cases tss with
    | nil => simp
    | cons us tss =>
      rw [Token.joined_cons_cons]
      simp only [List.length_append, List.length_cons] at ih ⊢
      omega

/-- The arguments of a call are read with the closing parenthesis. -/
theorem arguments_reads {xs : List α} (hxs : ∀ x ∈ xs, ReadsOperand w (tokens x) (value x))
    (h : Views w s (Token.joined ',' (xs.map tokens) ++ .punct ')' :: rest)) :
    ∃ t, commaSeparated expression s = .ok (xs.map value) t ∧ Views w t rest := by
  cases xs with
  | nil =>
    obtain ⟨t, h₁, ht⟩ := Views.advance h
    refine ⟨t, ?_, ht⟩
    rw [commaSeparated, current_bind, h.sees.current_eq, if_pos (by rfl), bind_of_ok h₁]
    rfl
  | cons x xs =>
    have hlength := length_le_joined ',' ((x :: xs).map tokens)
    obtain ⟨t, h₁, ht⟩ := items_reads (n := s.remaining + 1) (by simp) hxs
      (by rw [h.sees.remaining, List.length_append]; rw [List.length_map] at hlength; omega) h
    have hcurrent : ¬s.current.isPunct ')' = true := by
      intro hcur
      rw [itemsUpTo] at h₁
      obtain ⟨_, _, hfirst, _⟩ := bind_eq_ok.mp h₁
      have hstart := State.startsOperand_current h.sees hfirst
      rw [current_of_isPunct hcur] at hstart
      cases hstart
    refine ⟨t, ?_, ht⟩
    rw [commaSeparated, current_bind, if_neg hcurrent, bounded_apply]
    exact h₁

/-- A name with arguments behind it is a call, under the name as it is written if the host knows no other. -/
theorem namedWith_reads (hw : w.externals = .empty) {xs : List α} (hxs : ∀ x ∈ xs, ReadsOperand w (tokens x) (value x))
    (first : String) (member : Option String)
    (h : Views w s (.punct '(' :: (Token.joined ',' (xs.map tokens) ++ .punct ')' :: rest))) :
    ∃ t, namedWith primary first member s =
      .ok (.call (member.elim first fun member => first ++ "." ++ member) (xs.map value)) t ∧ Views w t rest := by
  obtain ⟨s₁, h₁, hs₁⟩ := h.expectPunct "'(' after a qualified name"
  obtain ⟨s₂, h₂, hs₂⟩ := arguments_reads hxs hs₁
  rw [namedWith, get_bind, current_bind, if_pos (by simp [h.sees.current_eq, Token.isPunct]), bind_of_ok h₁]
  rw [expression] at h₂
  rw [bind_of_ok h₂, h.workspace, hw]
  exact ⟨_, rfl, hs₂.note _⟩

/-- A name that nothing follows which belongs to it is a variable. -/
theorem reference_reads (hw : w.externals = .empty) {name : String} (hrest : endsOperand rest = true)
    (h : Views w s (.identifier name :: rest)) : ∃ t, referenceWith primary s = .ok (.var name) t ∧ Views w t rest := by
  have hpoint : ∀ us, rest ≠ .punct '.' :: us := by
    rintro us rfl
    cases hrest
  obtain ⟨t, h₁, ht, hsteps⟩ := referenceWith_eq_namedWith primary h.sees hpoint
  have hview := h.of_steps hsteps ht
  have hcall : ¬t.current.isPunct '(' = true := by
    intro hcur
    cases rest with
    | nil => rw [ht.current_nil] at hcur; cases hcur
    | cons token rest =>
      obtain rfl : token = .punct '(' := ht.current_eq.symm.trans (current_of_isPunct hcur)
      cases hrest
  refine ⟨t, ?_, hview⟩
  rw [h₁, namedWith, get_bind, current_bind, if_neg (by simpa using hcall), hview.workspace, hw]
  rfl

/-- The token of a number is read as that number. -/
theorem readsOperand_number (value : Binary64) : ReadsOperand w [.number value] (.number value) := by
  intro s rest _ h
  obtain ⟨t, ht, hs⟩ := Views.advance h
  refine ⟨t, ?_, hs⟩
  rw [primary_eq, primaryWith, current_bind, h.sees.current_eq]
  dsimp only
  rw [bind_of_ok ht]
  rfl

/-- A name is read as a variable of that name where no name is resolved. -/
theorem readsOperand_var (hw : w.externals = .empty) (name : String) : ReadsOperand w [.identifier name] (.var name) := by
  intro s rest hrest h
  obtain ⟨t, ht, hs⟩ := reference_reads hw hrest h
  refine ⟨t, ?_, hs⟩
  rw [primary_eq, primaryWith, current_bind, h.sees.current_eq]
  exact ht

/-- A call is read where its arguments are, with their values in order. -/
theorem readsOperand_call (hw : w.externals = .empty) {callee : String} (hcallee : isCallee callee = true) {xs : List α}
    (hxs : ∀ x ∈ xs, ReadsOperand w (tokens x) (value x)) :
    ReadsOperand w (calleeTokens callee ++ .punct '(' :: (Token.joined ',' (xs.map tokens) ++ [.punct ')']))
      (.call callee (xs.map value)) := by
  intro s rest _ h
  rw [List.append_assoc, List.cons_append, List.append_assoc, List.singleton_append] at h
  rw [primary_eq, primaryWith, current_bind]
  rcases isCallee_iff.mp hcallee with hname | ⟨first, member, hfirst, hmember, rfl⟩
  · rw [calleeTokens_name hname] at h
    obtain ⟨s₁, h₁, hs₁, hsteps⟩ := referenceWith_eq_namedWith primary h.sees (by simp)
    obtain ⟨t, h₂, ht⟩ := namedWith_reads hw hxs callee none (h.of_steps hsteps hs₁)
    refine ⟨t, ?_, ht⟩
    rw [h.sees.current_eq]
    exact h₁.trans h₂
  · rw [calleeTokens_member hfirst] at h
    obtain ⟨s₁, h₁, hs₁, hsteps⟩ := referenceWith_eq_namedWith_member primary h.sees
    obtain ⟨t, h₂, ht⟩ := namedWith_reads hw hxs first (some member) (h.of_steps hsteps hs₁)
    refine ⟨t, ?_, ht⟩
    rw [h.sees.current_eq]
    exact h₁.trans h₂

/-! ## What stands in parentheses -/

/-- An expression in parentheses is one operand. -/
theorem ReadsEnclosed.grouping (h : ReadsEnclosed w ts e) : ReadsOperand w (.punct '(' :: (ts ++ [.punct ')'])) e := by
  intro s rest _ hview
  rw [List.cons_append, List.append_assoc, List.singleton_append] at hview
  obtain ⟨s₁, h₁, hs₁⟩ := hview.advance
  obtain ⟨s₂, h₂, hs₂⟩ := h s₁ rest hs₁
  obtain ⟨t, h₃, ht⟩ := hs₂.expectPunct "')' to close the parenthesized expression"
  refine ⟨t, ?_, ht⟩
  rw [primary_eq, primaryWith, current_bind, hview.sees.current_eq]
  show groupingWith primary s = _
  rw [expression] at h₂
  rw [groupingWith, bind_of_ok h₁, bind_of_ok h₂, bind_of_ok h₃]
  rfl

theorem mem_all_of_symbol : ∀ c ∈ operatorSymbols, ∃ op ∈ Operator.all, op.symbol = c := by
  decide

/-- An operation on two operands. -/
theorem ReadsOperand.operation {us : List Token} {left right : Expr} {op : Char} (hop : op ∈ operatorSymbols)
    (hl : ReadsOperand w ts left) (hr : ReadsOperand w us right) :
    ReadsEnclosed w (ts ++ .punct op :: us) (.operation left op right) := by
  intro s rest h
  obtain ⟨op, hmem, rfl⟩ := mem_all_of_symbol op hop
  have hview : Views w s (ts ++ (chainTokens Prod.fst [(op, us, right)] ++ .punct ')' :: rest)) := by
    simpa [chainTokens] using h
  exact expression_reads Prod.snd (by rfl) hl [(op, us, right)] (by simpa using hmem) (by simpa using hr) hview
    (.of_tighter (.operand _) (by simp))

/-- The declaration of a variable with its first value. -/
theorem ReadsOperand.declaration (hw : w.externals = .empty) (name : String) (h : ReadsOperand w ts e) :
    ReadsEnclosed w (.keyword .var :: .identifier name :: .punct '=' :: ts) (.declaration name e) := by
  intro s rest hview
  obtain ⟨s₁, h₁, hs₁⟩ := Views.advance hview
  obtain ⟨s₂, h₂, hs₂⟩ := reference_reads hw (by rfl) hs₁
  have hchain : Views w s₂ (chainTokens Prod.fst [(⟨'=', 2⟩, ts, e)] ++ .punct ')' :: rest) := by simpa [chainTokens] using hs₂
  have hassigns : (⟨'=', 2⟩ : Operator) ∈ Operator.all := by decide
  obtain ⟨t, h₃, ht⟩ := operations_reads Prod.snd (by rfl) (by simpa using hassigns) (by simpa using h) hchain
    (.of_tighter (.operand _) (by simp))
  refine ⟨_, expression_of_primary ?_ (ht.note (.declaration name)).sees (by rfl), ht.note _⟩
  rw [primary_eq, primaryWith, current_bind, hview.sees.current_eq]
  show declarationWith primary s = _
  rw [declarationWith, bind_of_ok h₁, bind_of_ok h₂]
  dsimp only
  rw [bind_of_ok h₃]
  rfl

/-- The value that a function returns. -/
theorem ReadsOperand.ret (h : ReadsOperand w ts e) : ReadsEnclosed w (.keyword .return_ :: ts) (.ret e) := by
  intro s rest hview
  obtain ⟨s₁, h₁, hs₁⟩ := Views.advance hview
  obtain ⟨t, h₂, ht⟩ := h.expression (by rfl) hs₁
  refine ⟨t, expression_of_primary ?_ ht.sees (by rfl), ht⟩
  rw [primary_eq, primaryWith, current_bind, hview.sees.current_eq]
  show returnWith primary s = _
  rw [Grammar.expression] at h₂
  rw [returnWith, bind_of_ok h₁, bind_of_ok h₂]
  rfl

/-- In front of an operand there are no separators to pass over. -/
theorem ReadsOperand.skipStatementEnds (h : ReadsOperand w ts e) (hrest : endsExpression rest = true)
    (hview : Views w s (ts ++ rest)) : Production.skipStatementEnds s = .ok () s := by
  obtain ⟨_, ht, _⟩ := h.expression hrest hview
  have hstart := State.startsOperand_current hview.sees ht
  refine skipStatementEnds_stop fun hsep => ?_
  rw [hsep] at hstart
  cases hstart

/-- The tokens of the other branch of a condition, if there is one. -/
def otherwiseTokens (tokens : α → List Token) (no : Option α) : List Token := no.elim [] fun x => .keyword .else_ :: tokens x

/-- The other branch of a condition in front of a closing parenthesis. -/
theorem otherwise_reads {no : Option α} (hno : ∀ x ∈ no, ReadsOperand w (tokens x) (value x))
    (h : Views w s (otherwiseTokens tokens no ++ .punct ')' :: rest)) :
    ∃ t, otherwiseWith primary s = .ok (no.map value) t ∧ Views w t (.punct ')' :: rest) := by
  rw [otherwiseWith, current_bind]
  cases no with
  | none =>
    have hcurrent : s.current = .punct ')' := Sees.current_eq h.sees
    rw [if_neg (by simp [hcurrent])]
    exact ⟨s, rfl, h⟩
  | some x =>
    have hx := hno x rfl
    obtain ⟨s₁, h₁, hs₁⟩ := Views.advance h
    obtain ⟨t, h₂, ht⟩ := hx.expression (by rfl) hs₁
    rw [if_pos (Sees.current_eq h.sees), bind_of_ok h₁, bind_of_ok (hx.skipStatementEnds (by rfl) hs₁), map_eq_bind]
    rw [expression] at h₂
    rw [bind_of_ok h₂]
    exact ⟨t, rfl, ht⟩

/-- A condition with one or two branches. -/
theorem ReadsOperand.conditional {us : List Token} {test yes : Expr} {no : Option α} (htest : ReadsOperand w ts test)
    (hyes : ReadsOperand w us yes) (hno : ∀ x ∈ no, ReadsOperand w (tokens x) (value x)) :
    ReadsEnclosed w (.keyword .if_ :: .punct '(' :: (ts ++ .punct ')' :: (us ++ otherwiseTokens tokens no)))
      (.cond test yes (no.map value)) := by
  intro s rest h
  have hview : Views w s (.keyword .if_ :: .punct '(' :: (ts ++ .punct ')' ::
      (us ++ (otherwiseTokens tokens no ++ .punct ')' :: rest)))) := by simpa using h
  -- the first branch ends in front of `else` and in front of the parenthesis
  have hends : endsExpression (otherwiseTokens tokens no ++ .punct ')' :: rest) = true := by cases no <;> rfl
  have hsep : ∀ token ∈ (otherwiseTokens tokens no ++ .punct ')' :: rest).head?, token ≠ .statementEnd := by
    cases no <;> simp [otherwiseTokens]
  obtain ⟨s₁, h₁, hs₁⟩ := hview.advance
  obtain ⟨s₂, h₂, hs₂⟩ := hs₁.expectPunct "'(' after 'if'"
  obtain ⟨s₃, h₃, hs₃⟩ := htest.expression (by rfl) hs₂
  obtain ⟨s₄, h₄, hs₄⟩ := hs₃.expectPunct "')' after the if condition"
  obtain ⟨s₅, h₅, hs₅⟩ := hyes.expression hends hs₄
  obtain ⟨t, h₆, ht⟩ := otherwise_reads hno hs₅
  have hstop : Production.skipStatementEnds s₅ = .ok () s₅ := by
    refine skipStatementEnds_stop ?_
    generalize otherwiseTokens tokens no ++ .punct ')' :: rest = vs at hs₅ hsep
    cases vs with
    | nil => rw [hs₅.sees.current_nil]; simp
    | cons token vs => rw [hs₅.sees.current_eq]; exact hsep token rfl
  refine ⟨_, expression_of_primary ?_ (ht.note (.conditional (no.map value).isSome)).sees (by rfl), ht.note _⟩
  rw [primary_eq, primaryWith, current_bind, hview.sees.current_eq]
  show conditionalWith primary s = _
  rw [Grammar.expression] at h₃ h₅
  rw [conditionalWith, bind_of_ok h₁, bind_of_ok h₂, bind_of_ok h₃, bind_of_ok h₄,
    bind_of_ok (hyes.skipStatementEnds hends hs₄), bind_of_ok h₅, bind_of_ok hstop, bind_of_ok h₆]
  rfl

/-! ## Blocks -/

/-- The tokens of statements, with a separator in front of each. -/
def blockTokens (tokens : α → List Token) (xs : List α) : List Token := xs.flatMap fun x => .statementEnd :: tokens x

/-- A block has at least as many tokens as statements, so the bound on the loop over them suffices. -/
theorem length_le_blockTokens (tokens : α → List Token) (xs : List α) : xs.length ≤ (blockTokens tokens xs).length := by
  induction xs with
  | nil => exact Nat.le_refl _
  | cons x xs ih =>
    simp only [blockTokens, List.flatMap_cons, List.length_append, List.length_cons] at ih ⊢
    omega

/-- Statements are read up to the closing brace. -/
theorem statements_reads {xs : List α} (hxs : ∀ x ∈ xs, ReadsOperand w (tokens x) (value x)) :
    ∀ {n : Nat} {s : State}, xs.length < n → Views w s (blockTokens tokens xs ++ .punct '}' :: rest) →
      ∃ t, statementsUpTo primary n s = .ok (xs.map value) t ∧ Views w t rest := by
  induction xs with
  | nil =>
    intro n s hn h
    obtain ⟨n, rfl⟩ : ∃ m, n = m + 1 := ⟨n - 1, by omega⟩
    have hview : Views w s (.punct '}' :: rest) := h
    obtain ⟨t, h₁, ht⟩ := hview.advance
    refine ⟨t, ?_, ht⟩
    have hstop : Production.skipStatementEnds s = .ok () s := skipStatementEnds_stop (by simp [hview.sees.current_eq])
    rw [statementsUpTo, bind_of_ok hstop, current_bind, hview.sees.current_eq]
    show (Production.advance >>= fun _ => pure []) s = _
    rw [bind_of_ok h₁]
    rfl
  | cons x xs ih =>
    intro n s hn h
    obtain ⟨n, rfl⟩ : ∃ m, n = m + 1 := ⟨n - 1, by omega⟩
    have hx := hxs x List.mem_cons_self
    have hview : Views w s (.statementEnd :: (tokens x ++ (blockTokens tokens xs ++ .punct '}' :: rest))) := by
      simpa [blockTokens] using h
    have hends : endsExpression (blockTokens tokens xs ++ .punct '}' :: rest) = true := by cases xs <;> rfl
    obtain ⟨s₁, h₁, hs₁⟩ := hview.advance
    obtain ⟨s₂, h₂, hs₂⟩ := hx.expression hends hs₁
    obtain ⟨t, h₃, ht⟩ := ih (fun y hy => hxs y (List.mem_cons_of_mem x hy)) (n := n) (by simpa using hn) hs₂
    refine ⟨t, ?_, ht⟩
    have hskip : Production.skipStatementEnds s = .ok () s₁ :=
      (skipStatementEnds_advance hview.sees.current_eq h₁).trans (hx.skipStatementEnds hends hs₁)
    have hstart := State.startsOperand_current hs₁.sees h₂
    rw [statementsUpTo, bind_of_ok hskip, current_bind]
    rw [expression] at h₂
    -- what begins an operand does not end the block
    generalize s₁.current = token at hstart
    split
    · cases hstart
    · cases hstart
    · cases hstart
    · rw [bind_of_ok h₂, bind_of_ok h₃]
      rfl

/-- A block knows how many blocks are open inside it. -/
theorem readsOperand_block {xs : List α} (hxs : ∀ x ∈ xs, ReadsOperand { w with depth := w.depth + 1 } (tokens x) (value x)) :
    ReadsOperand w (.punct '{' :: (blockTokens tokens xs ++ [.punct '}'])) (.block (w.depth + 1) (xs.map value)) := by
  intro s rest _ h
  rw [List.cons_append, List.append_assoc, List.singleton_append] at h
  obtain ⟨s₁, h₁, hs₁⟩ := h.expectPunct r"'{'"
  have hlength : xs.length < s₁.remaining := by
    have hle := length_le_blockTokens tokens xs
    rw [hs₁.sees.remaining, List.length_append, List.length_cons]
    omega
  obtain ⟨t, h₂, ht⟩ := statements_reads hxs hlength hs₁.enter
  have hinside : insideBlock (bounded (statementsUpTo primary)) s₁ = .ok (xs.map value) t.leave := by
    rw [insideBlock_apply, bounded_apply, State.remaining_enter, h₂]
  refine ⟨t.leave, ?_, ht.leave⟩
  rw [primary_eq, primaryWith, current_bind, h.sees.current_eq]
  show blockWith primary s = _
  rw [blockWith, bind_of_ok h₁, get_bind, bind_of_ok hinside, hs₁.workspace]
  rfl

end

/-! ## Rounds of a script -/

namespace State

/-- An expression outside functions is stored. -/
theorem construct_expression {s t : State} {ts : List Token} {e : Expr} (hs : Sees s ts) (h : expression s = .ok e t) :
    s.current ≠ .endOfInput ∧ s.current ≠ .statementEnd ∧
      s.construct = .ok () { t with workspace := t.workspace.addGlobal ⟨t.workspace.globalPrototype, e⟩ } := by
  have hstart := startsOperand_current hs h
  have hend : s.current ≠ .endOfInput := fun heq => by rw [heq] at hstart; cases hstart
  have hsep : s.current ≠ .statementEnd := fun heq => by rw [heq] at hstart; cases hstart
  have hfunction : s.current ≠ .keyword .function := fun heq => by rw [heq] at hstart; cases hstart
  refine ⟨hend, hsep, ?_⟩
  rw [construct, if_neg hfunction, topLevel, bind_of_ok h]
  rfl

/-- A round of a script that reads an expression stores it and goes on behind it. -/
theorem scriptUpTo_expression {s t : State} {ts : List Token} {e : Expr} (hs : Sees s ts) (h : expression s = .ok e t) (n : Nat) :
    scriptUpTo (n + 1) s = scriptUpTo n { t with workspace := t.workspace.addGlobal ⟨t.workspace.globalPrototype, e⟩ } := by
  obtain ⟨hend, hsep, hc⟩ := construct_expression hs h
  rw [scriptUpTo, if_neg hend, if_neg hsep, hc]

/-- A separator is passed over in one round. -/
theorem scriptUpTo_separator {w : Workspace} {s : State} {ts : List Token} (h : Views w s (.statementEnd :: ts)) (n : Nat) :
    ∃ t, scriptUpTo (n + 1) s = scriptUpTo n t ∧ Views w t ts := by
  obtain ⟨t, ha, ht⟩ := h.advance
  refine ⟨t, ?_, ht⟩
  rw [scriptUpTo, if_neg h.sees.current_ne_end, if_pos h.sees.current_eq, pass_of_ok ha]
  rfl

end State

/-- Reading a source begins behind the separator in front of it. -/
theorem Workspace.read_behind_start (w : Workspace) {source : String} {ts : List Token}
    (hsource : (TokenStream.ofSource source).items.map (·.lexed) = ts.map .token) :
    ∃ s, Proper s ∧ Views w s ts ∧ (w.read source).workspace = s.script.1.workspace ∧ (w.read source).diagnostics = s.script.2 := by
  have hview : Views w (State.start source w) (.statementEnd :: ts) := ⟨.start w hsource, rfl⟩
  have hproper : Proper (State.start source w) := .start _ w
  obtain ⟨s, ha, hs⟩ := hview.advance
  obtain ⟨hworkspace, hdiagnostics⟩ := w.read_eq_script source
  rw [State.script_separator hproper hview.sees.current_eq, State.pass_of_ok ha] at hworkspace hdiagnostics
  exact ⟨s, hproper.advance ha, hs, hworkspace, hdiagnostics⟩

/-- A source whose tokens are one expression is read without a diagnostic, and the expression is stored. -/
theorem Workspace.read_expression {w : Workspace} {source : String} {ts : List Token} {e : Expr}
    (hsource : (TokenStream.ofSource source).items.map (·.lexed) = ts.map .token)
    (h : ∀ s, Views w s ts → ∃ t, expression s = .ok e t ∧ Views w t []) :
    (w.read source).diagnostics = [] ∧ (w.read source).workspace = w.addGlobal ⟨w.globalPrototype, e⟩ := by
  obtain ⟨s, hproper, hs, hworkspace, hdiagnostics⟩ := w.read_behind_start hsource
  obtain ⟨t, ht, hend⟩ := h s hs
  obtain ⟨hcurrent, hsep, hc⟩ := State.construct_expression hs.sees ht
  have hover := State.script_end (s := { t with workspace := t.workspace.addGlobal ⟨t.workspace.globalPrototype, e⟩ })
    hend.sees.current_nil
  rw [State.script_stored hproper hcurrent hsep hc, hover] at hworkspace hdiagnostics
  exact ⟨hdiagnostics, by rw [hworkspace, hend.workspace]⟩

end Offside
