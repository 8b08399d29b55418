import Offside.Proofs.Grammar.Extension
import Offside.Proofs.Grammar.Initializer
import Offside.Proofs.Grammar.Reading

/-!
# Reading goes no further than it has to

An expression that is read up to the end of the input is read in the same way where more follows, and what follows is left alone.
Two things could go on past the end: a block that nothing closes, and a condition, which looks for its other branch behind
separators. So the tokens have to close their blocks and to begin no condition; and what follows has to be something that ends an
expression.

`Prolongs` relates a state to one with more tokens behind, and `Local` says that a production takes such states to such states with
the same result. Each production is shown to be local for local operands, and the operands follow by induction on their bound
(`local_primaryUpTo`).
-/

namespace Offside.Grammar

open Production

/-- Both states have the workspace `w`. The first sees the tokens `ts`, the second sees `rest` behind them. The tokens begin no
condition, and they close the blocks that are open in front of them, at least `n`. -/
structure Prolongs (rest : List Token) (w : Workspace) (n : Nat) (ts : List Token) (s s' : State) : Prop where
  first : Views w s ts
  second : Views w s' (ts ++ rest)
  plain : .keyword .if_ ∉ ts
  closes : ∃ m, n ≤ m ∧ closesBlocks m ts = true

/-- What a production leads to with more tokens behind, where it leads to the result `a` and the state `t` without them: to the same
result, and to a state that has more tokens behind than `t`. -/
def Prolonged {α : Type} (rest : List Token) (w : Workspace) (n : Nat) (a : α) (t : State)
    (r : EStateM.Result Diagnostic State α) : Prop :=
  ∃ us t', r = .ok a t' ∧ Prolongs rest w n us t t'

/-- Where `p` succeeds, `q` does the same with `rest` behind the tokens. At least `n` blocks are open before and at least `k`
after. -/
def Local {α : Type} (rest : List Token) (n k : Nat) (p q : Production α) : Prop :=
  ∀ ⦃w : Workspace⦄ ⦃s s' t : State⦄ ⦃a : α⦄ ⦃ts : List Token⦄, Prolongs rest w n ts s s' → p s = .ok a t →
    Prolonged rest w k a t (q s')

namespace Prolongs

variable {rest ts : List Token} {w : Workspace} {n k : Nat} {s s' t : State} {token : Token}

/-- A token is read in both states, and the blocks that are open behind it may be others. -/
theorem advance (h : Prolongs rest w n (token :: ts) s s') (hcloses : ∃ m, k ≤ m ∧ closesBlocks m ts = true)
    (ha : Production.advance s = .ok () t) : ∃ t', Production.advance s' = .ok () t' ∧ Prolongs rest w k ts t t' := by
  have hsecond : Views w s' (token :: (ts ++ rest)) := h.second
  obtain ⟨t', h', ht'⟩ := hsecond.advance
  exact ⟨t', h', h.first.advance_ok ha, ht', fun hm => h.plain (List.mem_cons_of_mem _ hm), hcloses⟩

/-- A token that is no brace leaves the blocks alone. -/
theorem read (h : Prolongs rest w n (token :: ts) s s') (htoken : ∀ m, closesBlocks m (token :: ts) = closesBlocks m ts)
    (ha : Production.advance s = .ok () t) : ∃ t', Production.advance s' = .ok () t' ∧ Prolongs rest w n ts t t' := by
  obtain ⟨m, hm, hc⟩ := h.closes
  exact h.advance ⟨m, hm, htoken m ▸ hc⟩ ha

/-- With a token to come, both states have it as their lookahead. -/
theorem current (h : Prolongs rest w n (token :: ts) s s') : s'.current = s.current := by
  have hsecond : Sees s' (token :: (ts ++ rest)) := h.second.sees
  rw [h.first.sees.current_eq, hsecond.current_eq]

/-- Only a token of the first state is its lookahead. -/
theorem cons_of_current (h : Prolongs rest w n ts s s') (hcurrent : s.current = token) (hend : token ≠ .endOfInput) :
    ∃ us, ts = token :: us := by
  cases ts with
  | nil => exact absurd (hcurrent.symm.trans h.first.sees.current_nil) hend
  | cons u us => exact ⟨us, by rw [← hcurrent, h.first.sees.current_eq]⟩

theorem note (h : Prolongs rest w n ts s s') (event : Event) : Prolongs rest w n ts (s.note event) (s'.note event) :=
  ⟨h.first.note event, h.second.note event, h.plain, h.closes⟩

/-- Both states go into a block. -/
theorem enter (h : Prolongs rest w n ts s s') : Prolongs rest { w with depth := w.depth + 1 } n ts s.enter s'.enter :=
  ⟨h.first.enter, h.second.enter, h.plain, h.closes⟩

/-- Both states leave it again. -/
theorem leave (h : Prolongs rest { w with depth := w.depth + 1 } n ts s s') : Prolongs rest w n ts s.leave s'.leave :=
  ⟨h.first.leave, h.second.leave, h.plain, h.closes⟩

/-- Fewer blocks may be asked to be closed. -/
theorem mono (h : Prolongs rest w n ts s s') (hk : k ≤ n) : Prolongs rest w k ts s s' := by
  obtain ⟨m, hm, hc⟩ := h.closes
  exact ⟨h.first, h.second, h.plain, m, Nat.le_trans hk hm, hc⟩

/-- The state with more tokens behind has no fewer of them left. -/
theorem remaining_le (h : Prolongs rest w n ts s s') : s.remaining ≤ s'.remaining := by
  rw [h.first.sees.remaining, h.second.sees.remaining, List.length_append]
  exact Nat.le_add_right _ _

/-- Inside a block tokens are still to come. -/
theorem ne_nil (h : Prolongs rest w (n + 1) ts s s') : ts ≠ [] := by
  rintro rfl
  obtain ⟨m, hm, hc⟩ := h.closes
  simp only [closesBlocks, beq_iff_eq] at hc
  omega

/-- What is not the lookahead of the first state is not the lookahead of the second, if `rest` does not begin with it. -/
theorem current_ne (h : Prolongs rest w n ts s s') (hne : s.current ≠ token) (hend : token ≠ .endOfInput)
    (hrest : ∀ us, rest ≠ token :: us) : s'.current ≠ token := by
  cases ts with
  | cons u us => rwa [h.current]
  | nil =>
    have hsees : Sees s' rest := h.second.sees
    cases rest with
    | nil => rw [hsees.current_nil]; exact hend.symm
    | cons u us =>
      rw [hsees.current_eq]
      rintro rfl
      exact hrest us rfl

end Prolongs

section

variable {α β : Type} {rest : List Token} {n k m : Nat}

/-- Local productions one after another are local. -/
theorem Local.bind {p q : Production α} {f g : α → Production β} (hp : Local rest n k p q)
    (hf : ∀ a, Local rest k m (f a) (g a)) : Local rest n m (p >>= f) (q >>= g) := by
  intro w s s' t b ts h hok
  obtain ⟨a, u, h₁, h₂⟩ := bind_eq_ok.mp hok
  obtain ⟨us, u', h₁', hu⟩ := hp h h₁
  rw [bind_of_ok h₁']
  exact hf a hu h₂

/-- A value that is at hand takes no token. -/
theorem Local.pure (a : α) : Local rest n n (Pure.pure a) (Pure.pure a) := by
  intro w s s' t b ts h hok
  cases hok
  exact ⟨ts, s', rfl, h⟩

theorem Local.note (event : Event) : Local rest n n (Production.note event) (Production.note event) := by
  intro w s s' t b ts h hok
  cases hok
  exact ⟨ts, _, rfl, h.note event⟩

/-- Where the mark stands that is expected, it is read like any token. -/
theorem expectPunct_eq_advance {c : Char} {expected : String} {s : State} (h : s.current = .punct c) :
    expectPunct c expected s = advance s := by
  simp [expectPunct, h, Token.isPunct]

/-- A mark that neither opens nor closes a block. -/
theorem local_expectPunct {c : Char} (hc : ∀ m ts, closesBlocks m (.punct c :: ts) = closesBlocks m ts) (expected : String) :
    Local rest n n (expectPunct c expected) (expectPunct c expected) := by
  intro w s s' t _ ts h hok
  obtain ⟨us, rfl, _⟩ := h.first.sees.expectPunct_ok hok
  rw [expectPunct_eq_advance h.first.sees.current_eq] at hok
  rw [expectPunct_eq_advance (h.current.trans h.first.sees.current_eq)]
  exact ⟨us, h.read (fun m => hc m us) hok⟩

theorem local_identifier (expected : String) : Local rest n n (identifier expected) (identifier expected) := by
  intro w s s' t name ts h hok
  obtain ⟨us, rfl, _⟩ := h.first.sees.identifier_ok hok
  simp only [identifier, current_bind, h.first.sees.current_eq] at hok
  obtain ⟨_, u, h₁, h₂⟩ := bind_eq_ok.mp hok
  cases h₂
  obtain ⟨t', h₁', ht⟩ := h.read (fun m => by simp) h₁
  refine ⟨us, t', ?_, ht⟩
  simp only [identifier, current_bind, h.current, h.first.sees.current_eq]
  rw [bind_of_ok h₁']
  rfl

/-- Items are read up to the closing parenthesis. The second bound may be larger. -/
theorem local_itemsUpTo {p q : Production α} (hp : Local rest n n p q) :
    ∀ {i j : Nat}, i ≤ j → Local rest n n (itemsUpTo p i) (itemsUpTo q j) := by
  intro i
  induction i with
  | zero => intro j _ w s s' t a ts _ hok; cases hok
  | succ i ih =>
    intro j hij w s s' t a ts h hok
    obtain ⟨j, rfl⟩ : ∃ l, j = l + 1 := ⟨j - 1, by omega⟩
    obtain ⟨first, s₁, h₁, hok⟩ := bind_eq_ok.mp hok
    obtain ⟨us, s₁', h₁', hs₁⟩ := hp h h₁
    rw [itemsUpTo, bind_of_ok h₁', current_bind]
    rw [current_bind] at hok
    split at hok
    · rename_i hcomma
      obtain ⟨us, rfl⟩ := hs₁.cons_of_current (current_of_isPunct hcomma) (by simp)
      rw [if_pos (by rw [hs₁.current]; exact hcomma)]
      obtain ⟨_, s₂, h₂, hok⟩ := bind_eq_ok.mp hok
      obtain ⟨s₂', h₂', hs₂⟩ := hs₁.read (fun m => by simp) h₂
      rw [bind_of_ok h₂']
      exact Local.bind (ih (j := j) (by omega)) (fun more => .pure (first :: more)) hs₂ hok
    · rename_i hcomma
      rw [current_bind] at hok
      split at hok
      · rename_i hclose
        obtain ⟨us, rfl⟩ := hs₁.cons_of_current (current_of_isPunct hclose) (by simp)
        rw [if_neg (by rw [hs₁.current]; exact hcomma), current_bind, if_pos (by rw [hs₁.current]; exact hclose)]
        obtain ⟨_, s₂, h₂, hok⟩ := bind_eq_ok.mp hok
        cases hok
        obtain ⟨s₂', h₂', hs₂⟩ := hs₁.read (fun m => by simp) h₂
        rw [bind_of_ok h₂']
        exact ⟨us, s₂', rfl, hs₂⟩
      · cases hok

/-- A list ends with its parenthesis, so it does not look at what follows. -/
theorem local_commaSeparated {p q : Production α} (hc : Consumes p) (hp : Local rest n n p q) :
    Local rest n n (commaSeparated p) (commaSeparated q) := by
  intro w s s' t a ts h hok
  rw [commaSeparated, current_bind] at hok ⊢
  have hitems := local_itemsUpTo hp (Nat.add_le_add_right h.remaining_le 1)
  cases ts with
  | nil =>
    -- neither an item nor a parenthesis stands at the end
    rw [h.first.sees.current_nil, if_neg (by simp [Token.isPunct]), bounded_apply, itemsUpTo] at hok
    obtain ⟨first, s₁, h₁, _⟩ := bind_eq_ok.mp hok
    have hlt := hc s first s₁ h₁
    rw [h.first.sees.remaining] at hlt
    cases hlt
  | cons token ts =>
    rw [h.current]
    split at hok
    · rename_i hclose
      obtain rfl : token = .punct ')' := h.first.sees.current_eq.symm.trans (current_of_isPunct hclose)
      obtain ⟨_, s₁, h₁, hok⟩ := bind_eq_ok.mp hok
      cases hok
      obtain ⟨s₁', h₁', hs₁⟩ := h.read (fun m => by simp) h₁
      rw [if_pos hclose, bind_of_ok h₁']
      exact ⟨ts, s₁', rfl, hs₁⟩
    · rename_i hclose
      rw [if_neg hclose, bounded_apply]
      exact hitems h hok

end

/-! ## Productions over operands -/

/-- What stands behind the tokens ends an expression, and operands are local in front of it. -/
structure LocalOperand (rest : List Token) (p q : Production Expr) : Prop where
  ends : endsExpression rest = true
  consumes : Consumes p
  consumes' : Consumes q
  operand : ∀ n, Local rest n n p q

section

variable {rest : List Token} {n : Nat} {p q : Production Expr}

/-- The second chain ends where the first does, for `rest` begins with no operator. -/
theorem local_chain (ho : LocalOperand rest p q) (least : Nat) {xs : List (Operator × Expr)} :
    ∀ {w : Workspace} {s s' t : State} {ts : List Token}, Prolongs rest w n ts s s' → chain p least s = .ok xs t →
      Prolonged rest w n xs t (chain q least s') := by
  induction xs with
  | nil =>
    intro w s s' t ts h hok
    rcases chain_ok_cases ho.consumes hok with ⟨_, rfl, hstop⟩ | ⟨_, _, _, _, _, hcons, _⟩
    · refine ⟨ts, s', chain_stop ho.consumes' fun op hop => ?_, h⟩
      cases ts with
      | nil =>
        have hsecond : Sees s' rest := h.second.sees
        rw [hsecond.no_operator ho.ends] at hop
        cases hop
      | cons token ts => exact hstop op (h.current ▸ hop)
    · cases hcons
  | cons x xs ih =>
    intro w s s' t ts h hok
    rcases chain_ok_cases ho.consumes hok with ⟨hnil, _⟩ | ⟨op, right, _, s₁, s₂, hcons, hop, hl, h₁, h₂, hmore⟩
    · cases hnil
    · cases hcons
      obtain ⟨ts, rfl⟩ := h.cons_of_current (Operator.eq_punct_of_ofToken? hop) (by simp)
      have hmem := symbol_mem_operatorSymbols op (Operator.mem_all_of_ofToken? hop)
      obtain ⟨s₁', h₁', hs₁⟩ := h.read (fun m => closesBlocks_operator hmem m ts) h₁
      obtain ⟨us, s₂', h₂', hs₂⟩ := ho.operand n hs₁ h₂
      obtain ⟨vs, t', h₃', ht⟩ := ih hs₂ hmore
      refine ⟨vs, t', ?_, ht⟩
      rw [chain_next ho.consumes' (h.current ▸ hop) hl, bind_of_ok h₁', bind_of_ok h₂', bind_of_ok h₃']
      rfl

/-- What follows ends an expression, so no operation goes on with it. -/
theorem local_operationsWith (ho : LocalOperand rest p q) (least : Nat) (left : Expr) :
    Local rest n n (operationsWith p least left) (operationsWith q least left) := by
  intro w s s' t e ts h hok
  obtain ⟨xs, hchain, hgroup⟩ := chain_of_operationsWith ho.consumes hok
  obtain ⟨us, t', hchain', ht⟩ := local_chain ho least h hchain
  obtain ⟨e', h', hgroup'⟩ := operationsWith_of_chain ho.consumes' left hchain'
  exact ⟨us, t', by rw [h', hgroup.unique hgroup'], ht⟩

theorem local_expressionWith (ho : LocalOperand rest p q) : Local rest n n (expressionWith p) (expressionWith q) :=
  (ho.operand n).bind fun left => local_operationsWith ho 0 left

/-- `rest` does not begin with a point. -/
theorem local_member (hrest : endsExpression rest = true) : Local rest n n member? member? := by
  intro w s s' t a ts h hok
  rw [member?, current_bind] at hok ⊢
  split at hok
  · rename_i hpoint
    obtain ⟨us, rfl⟩ := h.cons_of_current (current_of_isPunct hpoint) (by simp)
    obtain ⟨_, s₁, h₁, hok⟩ := bind_eq_ok.mp hok
    obtain ⟨s₁', h₁', hs₁⟩ := h.read (fun m => by simp) h₁
    rw [map_eq_bind] at hok
    rw [h.current, if_pos hpoint, bind_of_ok h₁', map_eq_bind]
    exact Local.bind (local_identifier _) (fun name => .pure (some name)) hs₁ hok
  · rename_i hpoint
    have hne : s'.current ≠ .punct '.' := by
      refine h.current_ne (fun heq => hpoint (by simp [heq, Token.isPunct])) (by simp) ?_
      rintro us rfl
      cases hrest
    rw [if_neg fun hcur => hne (current_of_isPunct hcur)]
    cases hok
    exact ⟨ts, s', rfl, h⟩

/-- `rest` does not begin with a parenthesis that opens. -/
theorem local_namedWith (ho : LocalOperand rest p q) (first : String) (member : Option String) :
    Local rest n n (namedWith p first member) (namedWith q first member) := by
  intro w s s' t a ts h hok
  rw [namedWith, get_bind, current_bind, h.first.workspace] at hok
  rw [namedWith, get_bind, current_bind, h.second.workspace]
  have hcall : (s'.current.isPunct '(') = s.current.isPunct '(' := by
    by_cases hcur : s.current = .punct '('
    · obtain ⟨us, rfl⟩ := h.cons_of_current hcur (by simp)
      rw [h.current]
    · have hne : s'.current ≠ .punct '(' := by
        refine h.current_ne hcur (by simp) ?_
        rintro us rfl
        cases ho.ends
      rw [Token.isPunct, Token.isPunct, beq_eq_false_iff_ne.mpr hcur, beq_eq_false_iff_ne.mpr hne]
  rw [hcall]
  split at hok
  · rename_i hopen
    rw [if_pos hopen]
    have hlist := local_commaSeparated (consumes_expressionWith ho.consumes) (local_expressionWith (n := n) ho)
    exact Local.bind (local_expectPunct (fun m ts => by simp) _) (fun _ => .bind hlist fun arguments =>
      .bind (.note _) fun _ => .pure _) h hok
  · rename_i hopen
    rw [if_neg hopen]
    exact Local.pure _ h hok

/-- A name that is neither called nor has a member is ended by what follows. -/
theorem local_referenceWith (ho : LocalOperand rest p q) : Local rest n n (referenceWith p) (referenceWith q) :=
  .bind (local_identifier _) fun first => .bind (local_member ho.ends) fun member => local_namedWith ho first member

/-- The word that a production begins with. -/
theorem Local.behind {α : Type} {token : Token} {f g : Production α}
    (htoken : ∀ m ts, closesBlocks m (token :: ts) = closesBlocks m ts) (hf : Local rest n n f g) {w : Workspace} {s s' t : State} {a : α}
    {ts : List Token} (h : Prolongs rest w n (token :: ts) s s') (hok : (do advance; f) s = .ok a t) :
    Prolonged rest w n a t ((do advance; g) s') := by
  obtain ⟨_, s₁, h₁, hok⟩ := bind_eq_ok.mp hok
  obtain ⟨s₁', h₁', hs₁⟩ := h.read (fun m => htoken m ts) h₁
  rw [bind_of_ok h₁']
  exact hf hs₁ hok

/-- A declaration ends with the chain it takes its value from. -/
theorem local_declarationWith (ho : LocalOperand rest p q) {w : Workspace} {s s' t : State} {e : Expr} {ts : List Token}
    (h : Prolongs rest w n (.keyword .var :: ts) s s') (hok : declarationWith p s = .ok e t) :
    Prolonged rest w n e t (declarationWith q s') := by
  obtain ⟨x, s₃, value, u, ⟨h₁, hx, h₂, hassign, h₃⟩, hvalue, rfl, rfl⟩ := (declarationWith_ok_iff ho.consumes).mp hok
  obtain ⟨s₁', h₁', hs₁⟩ := h.read (fun m => by simp) h₁
  obtain ⟨ts, rfl⟩ := hs₁.cons_of_current hx (by simp)
  obtain ⟨s₂', h₂', hs₂⟩ := hs₁.read (fun m => by simp) h₂
  obtain ⟨ts, rfl⟩ := hs₂.cons_of_current hassign (by simp)
  obtain ⟨s₃', h₃', hs₃⟩ := hs₂.read (fun m => by simp) h₃
  obtain ⟨us, u', hvalue', hu⟩ := local_expressionWith ho hs₃ hvalue
  refine ⟨us, _, (declarationWith_ok_iff ho.consumes').mpr ⟨x, s₃', value, u', ?_, hvalue', ?_, rfl⟩, ?_⟩
  · exact .intro h₁' (hs₁.current.trans hx) h₂' (hs₂.current.trans hassign) h₃'
  · rw [h.first.workspace, h.second.workspace]
  · rw [h.first.workspace, h.second.workspace]
    exact hu.note _

/-- Separators open and close no block. -/
theorem closesBlocks_dropWhile (n : Nat) (ts : List Token) :
    closesBlocks n (ts.dropWhile (· = .statementEnd)) = closesBlocks n ts := by
  induction ts with
  | nil => rfl
  | cons token ts ih =>
    by_cases hsep : token = .statementEnd
    · simp [hsep, ih]
    · simp [hsep]

/-- Inside a block the separators end before the tokens do, so both runs pass over the same ones. -/
theorem local_skipStatementEnds : Local rest (n + 1) (n + 1) skipStatementEnds skipStatementEnds := by
  intro w s s' t a ts h hok
  obtain ⟨t', h', ht'⟩ := h.second.skipStatementEnds
  obtain ⟨m, hm, hc⟩ := h.closes
  have hinside : ts.dropWhile (· = .statementEnd) ≠ [] := by
    intro hnil
    rw [← closesBlocks_dropWhile, hnil] at hc
    simp only [closesBlocks, beq_iff_eq] at hc
    omega
  rw [List.dropWhile_append, if_neg (by simpa using hinside)] at ht'
  refine ⟨_, t', h', h.first.skipStatementEnds_ok hok, ht', fun hmem => h.plain ?_, m, hm, by rwa [closesBlocks_dropWhile]⟩
  exact (List.dropWhile_sublist _).mem hmem

/-- Statements are read up to the closing brace, which is there, or up to a function. -/
theorem local_statementsUpTo (ho : LocalOperand rest p q) {i : Nat} :
    ∀ {j : Nat} {w : Workspace} {s s' t : State} {a : List Expr} {ts : List Token}, s.remaining ≤ i → i ≤ j →
      Prolongs rest w (n + 1) ts s s' → statementsUpTo p i s = .ok a t →
        Prolonged rest w n a t (statementsUpTo q j s') := by
  induction i with
  | zero =>
    intro j w s s' t a ts hi _ h _
    exact absurd (List.eq_nil_of_length_eq_zero (h.first.sees.remaining.symm.trans (Nat.le_zero.mp hi))) h.ne_nil
  | succ i ih =>
    intro j w s s' t a ts hi hij h hok
    obtain ⟨j, rfl⟩ : ∃ l, j = l + 1 := ⟨j - 1, by omega⟩
    obtain ⟨_, s₁, h₁, hok⟩ := bind_eq_ok.mp hok
    have hle := (Agree.skipStatementEnds s (Nat.le_refl _)).bound _ _ h₁
    obtain ⟨us, s₁', h₁', hs₁⟩ := local_skipStatementEnds h h₁
    rw [statementsUpTo, bind_of_ok h₁', current_bind]
    rw [current_bind] at hok
    obtain ⟨m, hm, hc⟩ := hs₁.closes
    cases us with
    | nil => exact absurd rfl hs₁.ne_nil
    | cons token us =>
      rw [hs₁.current]
      revert hok
      generalize hcur : s₁.current = token'
      obtain rfl : token = token' := hs₁.first.sees.current_eq.symm.trans hcur
      split
      · intro hok
        obtain ⟨_, s₂, h₂, hok⟩ := bind_eq_ok.mp hok
        cases hok
        obtain ⟨m, rfl⟩ : ∃ l, m = l + 1 := ⟨m - 1, by omega⟩
        obtain ⟨s₂', h₂', hs₂⟩ := hs₁.advance (k := n) ⟨m, by omega, by simpa using hc⟩ h₂
        rw [bind_of_ok h₂']
        exact ⟨us, s₂', rfl, hs₂⟩
      · exact absurd hcur hs₁.first.sees.current_ne_end
      · intro hok
        cases hok
        exact ⟨_, s₁', rfl, hs₁.mono (Nat.le_succ n)⟩
      · intro hok
        obtain ⟨statement, s₂, h₂, hok⟩ := bind_eq_ok.mp hok
        obtain ⟨more, s₃, h₃, hok⟩ := bind_eq_ok.mp hok
        cases hok
        have hlt := consumes_expressionWith ho.consumes _ _ _ h₂
        obtain ⟨vs, s₂', h₂', hs₂⟩ := local_expressionWith ho hs₁ h₂
        obtain ⟨ws, s₃', h₃', hs₃⟩ := ih (j := j) (by omega) (by omega) hs₂ h₃
        rw [bind_of_ok h₂', bind_of_ok h₃']
        exact ⟨ws, s₃', rfl, hs₃⟩

/-- The block is closed by a token of its own, so nothing of what follows is read. -/
theorem local_blockWith (ho : LocalOperand rest p q) {w : Workspace} {s s' t : State} {e : Expr} {ts : List Token}
    (h : Prolongs rest w n (.punct '{' :: ts) s s') (hok : blockWith p s = .ok e t) :
    Prolonged rest w n e t (blockWith q s') := by
  have hcurrent := h.first.sees.current_eq
  obtain ⟨_, s₁, h₁, hok⟩ := bind_eq_ok.mp hok
  rw [expectPunct_eq_advance hcurrent] at h₁
  obtain ⟨m, hm, hc⟩ := h.closes
  obtain ⟨s₁', h₁', hs₁⟩ := h.advance (k := n + 1) ⟨m + 1, by omega, by simpa using hc⟩ h₁
  rw [get_bind] at hok
  obtain ⟨statements, s₂, h₂, hok⟩ := bind_eq_ok.mp hok
  cases hok
  obtain ⟨s₃, h₃, rfl⟩ := insideBlock_ok h₂
  obtain ⟨us, s₃', h₃', hs₃⟩ := local_statementsUpTo ho (j := s₁'.enter.remaining) (Nat.le_refl _) hs₁.enter.remaining_le
    hs₁.enter h₃
  have hinside : insideBlock (bounded (statementsUpTo q)) s₁' = .ok statements s₃'.leave := by
    rw [insideBlock_apply, bounded_apply, h₃']
  refine ⟨us, s₃'.leave, ?_, hs₃.leave⟩
  rw [blockWith, bind_of_ok ((expectPunct_eq_advance (h.current.trans hcurrent)).trans h₁'), get_bind, bind_of_ok hinside,
    hs₁.first.workspace, hs₁.second.workspace]
  rfl

/-- No operand begins with the word of a condition. -/
theorem local_primaryWith (ho : LocalOperand rest p q) : Local rest n n (primaryWith p) (primaryWith q) := by
  intro w s s' t e ts h hok
  have hexpr := local_expressionWith (n := n) ho
  rw [primaryWith, current_bind] at hok ⊢
  cases ts with
  | nil =>
    rw [h.first.sees.current_nil] at hok
    cases hok
  | cons token ts =>
    rw [h.first.sees.current_eq] at hok
    rw [h.current, h.first.sees.current_eq]
    revert hok
    split
    · exact fun hok => Local.behind (fun m ts => by simp) (.pure _) h hok
    · exact fun hok => local_referenceWith ho h hok
    · exact fun hok => Local.behind (fun m ts => by simp) (.bind hexpr fun _ => .pure _) h hok
    · exact fun hok => local_declarationWith ho h hok
    · exact absurd List.mem_cons_self h.plain
    · exact fun hok => Local.behind (fun m ts => by simp)
        (.bind hexpr fun _ => .bind (local_expectPunct (fun m ts => by simp) _) fun _ => .pure _) h hok
    · exact fun hok => local_blockWith ho h hok
    · intro hok
      cases hok

end

/-! ## Operands and expressions -/

variable {rest : List Token}

/-- With more tokens behind, an operand needs no bound. -/
theorem local_primaryUpTo (hrest : endsExpression rest = true) (i : Nat) : ∀ n, Local rest n n (primaryUpTo i) primary := by
  induction i with
  | zero =>
    intro n w s s' t e ts _ hok
    cases hok
  | succ i ih =>
    intro n
    rw [primary_eq]
    exact local_primaryWith ⟨hrest, consumes_primaryUpTo i, consumes_primary, ih⟩

/-- An operand that is read up to the end is read alike in front of whatever ends an expression. -/
theorem local_primary (hrest : endsExpression rest = true) (n : Nat) : Local rest n n primary primary :=
  fun _ _ _ _ _ _ h hok => local_primaryUpTo hrest _ n h hok

/-- An expression that is read up to the end is read alike in front of whatever ends one. -/
theorem local_expression (hrest : endsExpression rest = true) (n : Nat) : Local rest n n expression expression :=
  local_expressionWith ⟨hrest, consumes_primary, consumes_primary, local_primary hrest⟩

end Offside.Grammar
