import Offside.Proofs.Grammar.Soundness

/-!
# What is derivable is read

The grammar is ambiguous and a production decides by one token: it takes every operator, call, separator and `else` that it can get.
A derivation may have left such a token to something outside. What follows an expression in a derivation is kept as a predicate `K`
on the tokens behind it, and `Follow K` says that `K` gives way: whatever a greedy production takes away, the rest is again as `K`
wants it. Every place of the grammar in which an expression can stand gives such a predicate, and on such places no production fails.
-/

namespace Offside.Grammar

open Production

/-! ## How derivations begin -/

/-- The tokens that an operand begins with. -/
def startsOperand : Token → Bool
  | .number _ | .identifier _ | .keyword .return_ | .keyword .var | .keyword .if_ | .punct '(' | .punct '{' => true
  | _ => false

namespace Derives

variable {ts us vs : List Token} {token : Token}

/-- A derivable operand is not empty, and its first token tells that it is one. -/
theorem primary_starts (h : Derives .primary ts us) : ∃ token rest, ts = token :: rest ∧ startsOperand token = true := by
  cases h with
  | primaryBlock hb =>
    cases hb
    exact ⟨_, _, rfl, rfl⟩
  | _ => exact ⟨_, _, rfl, rfl⟩

/-- A derivable expression begins as its first operand does. -/
theorem expression_starts (h : Derives .expression ts us) :
    ∃ token rest, ts = token :: rest ∧ startsOperand token = true := by
  cases h with
  | expression hp _ => exact hp.primary_starts

/-- No expression begins with a token that begins no operand. -/
theorem not_expression (h : Derives .expression (token :: ts) us) (hn : startsOperand token = false) : False := by
  obtain ⟨_, _, heq, hs⟩ := h.expression_starts
  cases heq
  rw [hn] at hs
  cases hs

/-- Where no operator stands there are no operations. -/
theorem operations_eq (h : Derives .operations (token :: ts) us) (hn : ∀ c ∈ operatorSymbols, token ≠ .punct c) :
    us = token :: ts := by
  cases h with
  | noOperation => rfl
  | operation hc _ _ => exact absurd rfl (hn _ hc)

/-- An operand behind an opening parenthesis is an expression in parentheses. -/
theorem grouping_inv (h : Derives .primary (.punct '(' :: ts) us) : Derives .expression ts (.punct ')' :: us) := by
  cases h with
  | grouping he => exact he
  | primaryBlock hb => cases hb

/-- Separators in front of what cannot begin with one are all taken. -/
theorem separators_eq (h : Derives .separators ts us) :
    ts.dropWhile (· = .statementEnd) = us.dropWhile (· = .statementEnd) := by
  generalize hx : Symbol.separators = x at h
  induction h with
  | noSeparator => rfl
  | separator _ ih => simpa using ih hx
  | _ => cases hx

/-- Taking all separators leaves an expression where it is. -/
theorem expression_dropWhile (h : Derives .expression ts us) : ts.dropWhile (· = .statementEnd) = ts := by
  obtain ⟨token, rest, rfl, hs⟩ := h.expression_starts
  have hne : token ≠ .statementEnd := by
    rintro rfl
    cases hs
  simp [hne]

/-- A separator in front of derivable statements can be left out. -/
theorem statements_separator (h : Derives .statements (.statementEnd :: ts) us) : Derives .statements ts us := by
  cases h with
  | statementSeparator h => exact h
  | statement he _ => exact (he.not_expression rfl).elim

/-- All separators in front of derivable statements can be left out. -/
theorem statements_dropWhile (h : Derives .statements ts us) :
    Derives .statements (ts.dropWhile (· = .statementEnd)) us := by
  induction ts with
  | nil => exact h
  | cons token ts ih =>
    by_cases ht : token = .statementEnd
    · subst ht
      simpa using ih h.statements_separator
    · simpa [ht] using h

/-- A separator in front of a derivable program can be left out. -/
theorem program_separator (h : Derives .program (.statementEnd :: ts) us) : Derives .program ts us := by
  cases h with
  | programSeparator h => exact h
  | programFunction hf _ => cases hf
  | programExpression he _ => exact (he.not_expression rfl).elim

end Derives

/-! ## What may follow an expression -/

/-- The tokens begin with a piece of the symbol, and the rest is as `K` wants it. -/
def Then (x : Symbol) (K : List Token → Prop) (ts : List Token) : Prop := ∃ us, Derives x ts us ∧ K us

/-- The tokens begin with a given character, and the rest is as `K` wants it. -/
def Behind (c : Char) (K : List Token → Prop) (ts : List Token) : Prop := ∃ us, ts = .punct c :: us ∧ K us

/-- A predicate on what follows an expression that gives way to greedy productions. -/
structure Follow (K : List Token → Prop) : Prop where
  operator {c : Char} {ts : List Token} : c ∈ operatorSymbols → K (.punct c :: ts) →
    ∃ us, Derives .primary ts us ∧ Then .operations K us
  call {ts : List Token} : K (.punct '(' :: ts) →
    ∃ us, Derives (.list .expression) ts (.punct ')' :: us) ∧ Then .operations K us
  point {ts : List Token} : ¬K (.punct '.' :: ts)
  separator {ts : List Token} : K (.statementEnd :: ts) → K ts
  otherwise {ts : List Token} : K (.keyword .else_ :: ts) →
    ∃ us vs, Derives .separators ts us ∧ Derives .expression us vs ∧ K vs

/-- A token that no production goes on with behind an expression. -/
def Stops (token : Token) : Prop :=
  (∀ c ∈ operatorSymbols, token ≠ .punct c) ∧ token ≠ .punct '(' ∧ token ≠ .punct '.' ∧ token ≠ .statementEnd ∧
    token ≠ .keyword .else_

/-- A weaker demand on the rest is met as well. -/
theorem Then.mono {x : Symbol} {K K' : List Token → Prop} (h : ∀ ts, K ts → K' ts) {ts : List Token} (ht : Then x K ts) :
    Then x K' ts := by
  obtain ⟨us, hd, hk⟩ := ht
  exact ⟨us, hd, h us hk⟩

/-- Operations behind operations are operations. -/
theorem Then.operations_append {K : List Token → Prop} {ts : List Token} (h : Then .operations (Then .operations K) ts) :
    Then .operations K ts := by
  obtain ⟨us, hd, vs, hd', hk⟩ := h
  exact ⟨vs, hd.operations_append hd', hk⟩

/-- No operand begins with an operator. -/
theorem not_startsOperand_operator : ∀ c ∈ operatorSymbols, startsOperand (.punct c) = false := by
  decide

/-- A character that is no operator makes a token other than those of the operators. -/
theorem punct_ne_operator {d : Char} (h : d ∉ operatorSymbols) : ∀ c ∈ operatorSymbols, Token.punct d ≠ .punct c := by
  intro c hc heq
  cases heq
  exact h hc

namespace Follow

variable {K : List Token → Prop}

/-- A sequence of separators and expressions, up to a token that no production goes on with, gives way. -/
theorem of_sequence (h : ∀ {token ts}, K (token :: ts) →
      Stops token ∨ (token = .statementEnd ∧ K ts) ∨ Then .expression K (token :: ts)) : Follow K where
  operator := by
    intro c ts hc hk
    rcases h hk with hs | ⟨heq, _⟩ | ⟨us, he, _⟩
    · exact absurd rfl (hs.1 c hc)
    · cases heq
    · exact (he.not_expression (not_startsOperand_operator c hc)).elim
  call := by
    intro ts hk
    rcases h hk with hs | ⟨heq, _⟩ | ⟨us, he, hk'⟩
    · exact absurd rfl hs.2.1
    · cases heq
    · -- what would be a statement in parentheses is taken for the argument of a call
      cases he with
      | expression hp ho => exact ⟨_, .list (.lastItem hp.grouping_inv), us, ho, hk'⟩
  point := by
    intro ts hk
    rcases h hk with hs | ⟨heq, _⟩ | ⟨us, he, _⟩
    · exact absurd rfl hs.2.2.1
    · cases heq
    · exact he.not_expression rfl
  separator := by
    intro ts hk
    rcases h hk with hs | ⟨_, hk'⟩ | ⟨us, he, _⟩
    · exact absurd rfl hs.2.2.2.1
    · exact hk'
    · exact (he.not_expression rfl).elim
  otherwise := by
    intro ts hk
    rcases h hk with hs | ⟨heq, _⟩ | ⟨us, he, _⟩
    · exact absurd rfl hs.2.2.2.2
    · cases heq
    · exact (he.not_expression rfl).elim

/-- Behind what stands in parentheses the parenthesis is closed. -/
theorem close (K : List Token → Prop) : Follow (Behind ')' K) := by
  apply of_sequence
  rintro token ts ⟨us, heq, _⟩
  cases heq
  exact Or.inl (by simp [Stops, operatorSymbols])

/-- Behind an item of a list stands another item or the end of the list. -/
theorem item (K K' : List Token → Prop) : Follow fun ts => Behind ',' K ts ∨ Behind ')' K' ts := by
  apply of_sequence
  rintro token ts (⟨us, heq, _⟩ | ⟨us, heq, _⟩) <;>
  · cases heq
    exact Or.inl (by simp [Stops, operatorSymbols])

/-- Behind the inside of a block anything may stand. -/
theorem statements (K : List Token → Prop) : Follow (Then .statements K) := by
  apply of_sequence
  rintro token ts ⟨us, hd, hk⟩
  cases hd with
  | closed => exact Or.inl (by simp [Stops, operatorSymbols])
  | beforeFunction => exact Or.inl (by simp [Stops])
  | statementSeparator hd => exact Or.inr (Or.inl ⟨rfl, us, hd, hk⟩)
  | statement he hd => exact Or.inr (Or.inr ⟨_, he, us, hd, hk⟩)

/-- The rest of a script gives way. -/
theorem program : Follow fun ts => Derives .program ts [] := by
  apply of_sequence
  intro token ts hd
  cases hd with
  | programSeparator hd => exact Or.inr (Or.inl ⟨rfl, hd⟩)
  | programFunction hf _ =>
    cases hf
    exact Or.inl (by simp [Stops])
  | programExpression he hd => exact Or.inr (Or.inr ⟨_, he, hd⟩)

/-- Operations in front of what gives way give way. -/
theorem operations (h : Follow K) : Follow (Then .operations K) where
  operator := by
    rintro c ts hc ⟨us, hd, hk⟩
    cases hd with
    | noOperation =>
      obtain ⟨us, hp, ho⟩ := h.operator hc hk
      exact ⟨us, hp, ho.mono fun vs hk' => ⟨vs, .noOperation vs, hk'⟩⟩
    | operation _ hp ho => exact ⟨_, hp, us, ho, us, .noOperation us, hk⟩
  call := by
    rintro ts ⟨us, hd, hk⟩
    obtain rfl := hd.operations_eq (punct_ne_operator (by decide))
    obtain ⟨us, hl, ho⟩ := h.call hk
    exact ⟨us, hl, ho.mono fun vs hk' => ⟨vs, .noOperation vs, hk'⟩⟩
  point := by
    rintro ts ⟨us, hd, hk⟩
    obtain rfl := hd.operations_eq (punct_ne_operator (by decide))
    exact h.point hk
  separator := by
    rintro ts ⟨us, hd, hk⟩
    obtain rfl := hd.operations_eq (by simp)
    exact ⟨ts, .noOperation ts, h.separator hk⟩
  otherwise := by
    rintro ts ⟨us, hd, hk⟩
    obtain rfl := hd.operations_eq (by simp)
    obtain ⟨us, vs, hs, he, hk'⟩ := h.otherwise hk
    exact ⟨us, vs, hs, he, vs, .noOperation vs, hk'⟩

/-- A branch may be followed by the other branch, with separators in front of it. -/
theorem branch (h : Follow K) : Follow (Then .separators (Then .otherwise K)) := by
  have hlift : ∀ ts, K ts → Then .separators (Then .otherwise K) ts :=
    fun ts hk => ⟨ts, .noSeparator ts, ts, .noOtherwise ts, hk⟩
  -- in front of any other token there are neither separators nor a branch
  have hskip : ∀ {token ts}, token ≠ .statementEnd → token ≠ .keyword .else_ →
      Then .separators (Then .otherwise K) (token :: ts) → K (token :: ts) := by
    rintro token ts hsep helse ⟨us, hd, vs, hd', hk⟩
    cases hd with
    | noSeparator =>
      cases hd' with
      | noOtherwise => exact hk
      | otherwise => exact absurd rfl helse
    | separator => exact absurd rfl hsep
  refine ⟨?_, ?_, ?_, ?_, ?_⟩
  · intro c ts hc hk
    obtain ⟨us, hp, ho⟩ := h.operator hc (hskip (by simp) (by simp) hk)
    exact ⟨us, hp, ho.mono hlift⟩
  · intro ts hk
    obtain ⟨us, hl, ho⟩ := h.call (hskip (by simp) (by simp) hk)
    exact ⟨us, hl, ho.mono hlift⟩
  · exact fun hk => h.point (hskip (by simp) (by simp) hk)
  · rintro ts ⟨us, hd, hk⟩
    cases hd with
    | noSeparator =>
      obtain ⟨vs, hd', hk'⟩ := hk
      cases hd'
      exact hlift ts (h.separator hk')
    | separator hd => exact ⟨us, hd, hk⟩
  · rintro ts ⟨us, hd, vs, hd', hk⟩
    cases hd
    cases hd' with
    | noOtherwise =>
      obtain ⟨us, vs, hs, he, hk'⟩ := h.otherwise hk
      exact ⟨us, vs, hs, he, hlift vs hk'⟩
    | otherwise hs he => exact ⟨_, _, hs, he, hlift _ hk⟩

end Follow

/-! ## Reading what is derivable -/

/-- In front of at most `n` tokens that begin with a piece of the symbol, with `K` behind it, a production succeeds and leaves
tokens that are again as `K` wants them. -/
def CompleteAt {α : Type} (n : Nat) (x : Symbol) (K : List Token → Prop) (p : Production α) : Prop :=
  ∀ {s : State} {ts : List Token}, ts.length ≤ n → Sees s ts → Then x K ts → ∃ a t us, p s = .ok a t ∧ Sees t us ∧ K us

/-- An operand never fails in front of a derivable one with operations behind it. -/
def CompleteOperand (n : Nat) (operand : Production Expr) : Prop :=
  ∀ {K : List Token → Prop}, Follow K → CompleteAt n .primary (Then .operations K) operand

section

variable {α : Type} {n : Nat} {x : Symbol} {item : Production α} {operand : Production Expr} {K : List Token → Prop}

/-- A production that uses tokens up leaves fewer of them. -/
theorem length_lt_of_consumes {p : Production α} (hc : Consumes p) {s t : State} {a : α} {ts us : List Token}
    (hs : Sees s ts) (ht : Sees t us) (h : p s = .ok a t) : us.length < ts.length := by
  rw [← hs.remaining, ← ht.remaining]
  exact hc s a t h

/-- The items of a derivable list are read up to its end, by induction on the bound. -/
theorem complete_itemsUpTo (hc : Consumes item) (hi : ∀ {K}, Follow K → CompleteAt n x K item) (m : Nat) :
    ∀ {s : State} {ts : List Token}, ts.length ≤ n → ts.length < m → Sees s ts → Then (.items x) (Behind ')' K) ts →
      ∃ a t us, itemsUpTo item m s = .ok a t ∧ Sees t us ∧ K us := by
  induction m with
  | zero => intro s ts _ hm; cases hm
  | succ m ih =>
    rintro s ts hn hm hs ⟨us, hd, hclose⟩
    -- whether the derivation ends the list here or not, the item is followed by a comma or the parenthesis
    have hitem : Then x (fun ts => Behind ',' (Then (.items x) (Behind ')' K)) ts ∨ Behind ')' K ts) ts := by
      cases hd with
      | lastItem hd => exact ⟨us, hd, Or.inr hclose⟩
      | item hd hrest => exact ⟨_, hd, Or.inl ⟨_, rfl, us, hrest, hclose⟩⟩
    obtain ⟨first, s₁, vs, h₁, hs₁, hk⟩ := hi (.item _ _) hn hs hitem
    have hlt := length_lt_of_consumes hc hs hs₁ h₁
    rw [itemsUpTo, bind_of_ok h₁, current_bind]
    rcases hk with ⟨ws, rfl, hmore⟩ | ⟨ws, rfl, hk⟩
    · obtain ⟨s₂, h₂, hs₂⟩ := hs₁.advance
      simp only [List.length_cons] at hlt
      obtain ⟨rest, s₃, xs, h₃, hs₃, hk⟩ := ih (by omega) (by omega) hs₂ hmore
      refine ⟨first :: rest, s₃, xs, ?_, hs₃, hk⟩
      rw [hs₁.current_eq, if_pos (by rfl), bind_of_ok h₂, bind_of_ok h₃]
      rfl
    · obtain ⟨s₂, h₂, hs₂⟩ := hs₁.advance
      refine ⟨[first], s₂, ws, ?_, hs₂, hk⟩
      rw [hs₁.current_eq, if_neg (by simp [Token.isPunct]), current_bind, hs₁.current_eq, if_pos (by rfl), bind_of_ok h₂]
      rfl

/-- A derivable list in parentheses is read, also an empty one. -/
theorem complete_commaSeparated (hc : Consumes item) (hi : ∀ {K}, Follow K → CompleteAt n x K item)
    (hstart : ∀ {ts us}, ¬Derives x (.punct ')' :: ts) us) {s : State} {ts : List Token} (hn : ts.length ≤ n) (hs : Sees s ts)
    (h : Then (.list x) (Behind ')' K) ts) : ∃ a t us, commaSeparated item s = .ok a t ∧ Sees t us ∧ K us := by
  obtain ⟨us, hd, hclose⟩ := h
  cases hd with
  | emptyList =>
    obtain ⟨vs, rfl, hk⟩ := hclose
    obtain ⟨s₁, h₁, hs₁⟩ := hs.advance
    refine ⟨[], s₁, vs, ?_, hs₁, hk⟩
    rw [commaSeparated, current_bind, hs.current_eq, if_pos (by rfl), bind_of_ok h₁]
    rfl
  | list hd =>
    have hne : ¬s.current.isPunct ')' = true := by
      intro hcur
      cases ts with
      | nil => rw [hs.current_nil] at hcur; cases hcur
      | cons token ts =>
        obtain rfl : token = .punct ')' := hs.current_eq.symm.trans (current_of_isPunct hcur)
        cases hd with
        | lastItem hd => exact hstart hd
        | item hd _ => exact hstart hd
    rw [commaSeparated, current_bind, if_neg hne, bounded_apply, hs.remaining]
    exact complete_itemsUpTo hc hi _ hn (Nat.lt_succ_self _) hs ⟨us, hd, hclose⟩

/-- Every operator is taken for one. -/
theorem ofToken?_isSome_of_mem : ∀ c ∈ operatorSymbols, (Operator.ofToken? (.punct c)).isSome = true := by
  decide

/-- A chain takes every operator it meets, and what gives way lets it have the operand behind it. -/
theorem complete_chain (hc : Consumes operand) (ho : CompleteOperand n operand) (hK : Follow K) (m : Nat) :
    ∀ {s : State} {ts : List Token}, ts.length ≤ m → ts.length ≤ n → Sees s ts → Then .operations K ts →
      ∃ rest t us, chain operand 0 s = .ok rest t ∧ Sees t us ∧ K us := by
  induction m with
  | zero =>
    rintro s ts hm _ hs ⟨us, hd, hk⟩
    obtain rfl := List.eq_nil_of_length_eq_zero (Nat.le_zero.mp hm)
    cases hd
    refine ⟨[], s, [], chain_stop hc ?_, hs, hk⟩
    intro op hop
    exact absurd hs.current_nil (Operator.ofToken?_ne_endOfInput hop)
  | succ m ih =>
    intro s ts hm hn hs hk
    rcases operator_cases 0 s.current with hstop | ⟨op, hop, hl⟩
    · refine ⟨[], s, ts, chain_stop hc hstop, hs, ?_⟩
      obtain ⟨us, hd, hk⟩ := hk
      cases hd with
      | noOperation => exact hk
      | operation hmem _ _ =>
        obtain ⟨op, hop⟩ := Option.isSome_iff_exists.mp (ofToken?_isSome_of_mem _ hmem)
        rw [← hs.current_eq] at hop
        exact absurd (hstop op hop) (Nat.not_lt_zero _)
    · cases ts with
      | nil => exact absurd hs.current_nil (Operator.ofToken?_ne_endOfInput hop)
      | cons token ts =>
        obtain rfl : token = .punct op.symbol := hs.current_eq.symm.trans (Operator.eq_punct_of_ofToken? hop)
        have hmem := symbol_mem_operatorSymbols op (Operator.mem_all_of_ofToken? hop)
        obtain ⟨us, hp, hops⟩ := hK.operations.operator hmem hk
        obtain ⟨s₁, h₁, hs₁⟩ := hs.advance
        simp only [List.length_cons] at hm hn
        obtain ⟨right, s₂, vs, h₂, hs₂, hk₂⟩ := ho hK (by omega) hs₁ ⟨us, hp, hops.operations_append⟩
        have hlt := length_lt_of_consumes hc hs₁ hs₂ h₂
        obtain ⟨rest, s₃, ws, h₃, hs₃, hk₃⟩ := ih (by omega) (by omega) hs₂ hk₂
        refine ⟨(op, right) :: rest, s₃, ws, ?_, hs₃, hk₃⟩
        rw [chain_next hc hop hl, bind_of_ok h₁, bind_of_ok h₂, bind_of_ok h₃]
        rfl

/-- Operations succeed where the chain of their operators does. -/
theorem operationsWith_of_chain (hc : Consumes operand) {least : Nat} (left : Expr) {s t : State}
    {rest : List (Operator × Expr)} (h : chain operand least s = .ok rest t) :
    ∃ e, operationsWith operand least left s = .ok e t ∧ Grouped left rest e := by
  rcases (groups_operationsWith hc least left s).cases_result with ⟨rest', t', e, hchain, hp, hg⟩ | ⟨d, t', hchain, _⟩
  · rw [h] at hchain
    cases hchain
    exact ⟨e, hp, hg⟩
  · rw [h] at hchain
    cases hchain

/-- Operands that never fail make expressions that never fail. -/
theorem complete_expressionWith (hc : Consumes operand) (ho : CompleteOperand n operand) (hK : Follow K) :
    CompleteAt n .expression K (expressionWith operand) := by
  rintro s ts hn hs ⟨us, hd, hk⟩
  cases hd with
  | expression hp hops =>
    obtain ⟨left, s₁, vs, h₁, hs₁, hk₁⟩ := ho hK hn hs ⟨_, hp, us, hops, hk⟩
    have hlt := length_lt_of_consumes hc hs hs₁ h₁
    obtain ⟨rest, s₂, ws, h₂, hs₂, hk₂⟩ := complete_chain hc ho hK n (by omega) (by omega) hs₁ hk₁
    obtain ⟨e, h₃, _⟩ := operationsWith_of_chain hc left h₂
    refine ⟨e, s₂, ws, ?_, hs₂, hk₂⟩
    rw [expressionWith, bind_of_ok h₁, h₃]

/-- A name that is called reads its arguments. -/
theorem complete_namedWith (hc : Consumes operand) (ho : CompleteOperand n operand) (first : String) {m : Option String}
    {s : State} {ts us : List Token} (hn : ts.length ≤ n) (hs : Sees s (.punct '(' :: ts))
    (hl : Derives (.list .expression) ts (.punct ')' :: us)) (hk : K us) :
    ∃ e t vs, namedWith operand first m s = .ok e t ∧ Sees t vs ∧ K vs := by
  obtain ⟨s₁, h₁, hs₁⟩ := hs.expectPunct "'(' after a qualified name"
  have hstart : ∀ {ts us}, ¬Derives .expression (.punct ')' :: ts) us := fun hd => hd.not_expression rfl
  obtain ⟨arguments, s₂, vs, h₂, hs₂, hk₂⟩ := complete_commaSeparated (consumes_expressionWith hc)
    (complete_expressionWith hc ho) hstart hn hs₁ ⟨_, hl, us, rfl, hk⟩
  rw [namedWith, get_bind, current_bind, if_pos (by simp [hs.current_eq, Token.isPunct]), bind_of_ok h₁, bind_of_ok h₂]
  exact ⟨_, _, vs, rfl, hs₂.note _, hk₂⟩

/-- A name with no point behind it is looked at with what follows. -/
theorem referenceWith_eq_namedWith (operand : Production Expr) {s : State} {name : String} {ts : List Token}
    (hs : Sees s (.identifier name :: ts)) (hpoint : ∀ us, ts ≠ .punct '.' :: us) :
    ∃ s₁, referenceWith operand s = namedWith operand name none s₁ ∧ Sees s₁ ts ∧ Steps s s₁ := by
  obtain ⟨s₁, h₁, hs₁⟩ := hs.identifier "an identifier"
  have hmember : member? s₁ = .ok none s₁ := by
    have hcur : ¬s₁.current.isPunct '.' = true := by
      intro hcur
      cases ts with
      | nil => rw [hs₁.current_nil] at hcur; cases hcur
      | cons token ts => exact hpoint ts (by rw [← hs₁.current_eq, current_of_isPunct hcur])
    rw [member?, current_bind, if_neg hcur]
    rfl
  have hsteps := (Agree.identifier "an identifier" s (Nat.le_refl _)).follows
  rw [h₁] at hsteps
  exact ⟨s₁, by rw [referenceWith, bind_of_ok h₁, bind_of_ok hmember], hs₁, hsteps⟩

/-- A name with a point and a member behind it is looked at with what follows these. -/
theorem referenceWith_eq_namedWith_member (operand : Production Expr) {s : State} {name member : String} {ts : List Token}
    (hs : Sees s (.identifier name :: .punct '.' :: .identifier member :: ts)) :
    ∃ s₁, referenceWith operand s = namedWith operand name (some member) s₁ ∧ Sees s₁ ts ∧ Steps s s₁ := by
  obtain ⟨s₁, h₁, hs₁⟩ := hs.identifier "an identifier"
  obtain ⟨s₂, h₂, hs₂⟩ := hs₁.advance
  obtain ⟨s₃, h₃, hs₃⟩ := hs₂.identifier "a member name after '.'"
  have hmember : member? s₁ = .ok (some member) s₃ := by
    rw [member?, current_bind, hs₁.current_eq, if_pos (by rfl), bind_of_ok h₂, map_eq_bind, bind_of_ok h₃]
    rfl
  have hsteps := (Agree.identifier "an identifier" s (Nat.le_refl _)).follows
  have hsteps' := (Agree.member s₁ (Nat.le_refl _)).follows
  rw [h₁] at hsteps
  rw [hmember] at hsteps'
  exact ⟨s₃, by rw [referenceWith, bind_of_ok h₁, bind_of_ok hmember], hs₃, hsteps.trans hsteps'⟩

/-- A name with nothing but what gives way behind it is a variable, or a call if a parenthesis follows. -/
theorem complete_bareName (hc : Consumes operand) (ho : CompleteOperand n operand) (hK : Follow K) {s : State} {name : String}
    {ts : List Token} (hn : ts.length ≤ n) (hs : Sees s (.identifier name :: ts)) (hk : Then .operations K ts) :
    ∃ e t us, referenceWith operand s = .ok e t ∧ Sees t us ∧ Then .operations K us := by
  obtain ⟨s₁, h₁, hs₁, _⟩ := referenceWith_eq_namedWith operand hs (fun us heq => hK.operations.point (heq ▸ hk))
  rw [h₁]
  by_cases hcall : s₁.current.isPunct '(' = true
  · cases ts with
    | nil => rw [hs₁.current_nil] at hcall; cases hcall
    | cons token ts =>
      obtain rfl : token = .punct '(' := hs₁.current_eq.symm.trans (current_of_isPunct hcall)
      obtain ⟨us, hl, hops⟩ := hK.operations.call hk
      exact complete_namedWith hc ho name (Nat.le_of_succ_le hn) hs₁ hl hops.operations_append
  · rw [namedWith, get_bind, current_bind, if_neg (by simpa using hcall)]
    exact ⟨_, s₁, ts, rfl, hs₁, hk⟩

/-- A derivable call is read, with whatever operators the derivation left to the outside. -/
theorem complete_call (hc : Consumes operand) (ho : CompleteOperand n operand) {s : State} {name : String}
    {ts us : List Token} (hn : ts.length ≤ n) (hs : Sees s (.identifier name :: .punct '(' :: ts))
    (hl : Derives (.list .expression) ts (.punct ')' :: us)) (hk : K us) :
    ∃ e t vs, referenceWith operand s = .ok e t ∧ Sees t vs ∧ K vs := by
  obtain ⟨s₁, h₁, hs₁, _⟩ := referenceWith_eq_namedWith operand hs (by simp)
  rw [h₁]
  exact complete_namedWith hc ho name hn hs₁ hl hk

/-- A name with a member behind it is called. -/
theorem complete_memberCall (hc : Consumes operand) (ho : CompleteOperand n operand) {s : State} {name member : String}
    {ts us : List Token} (hn : ts.length ≤ n)
    (hs : Sees s (.identifier name :: .punct '.' :: .identifier member :: .punct '(' :: ts))
    (hl : Derives (.list .expression) ts (.punct ')' :: us)) (hk : K us) :
    ∃ e t vs, referenceWith operand s = .ok e t ∧ Sees t vs ∧ K vs := by
  obtain ⟨s₁, h₁, hs₁, _⟩ := referenceWith_eq_namedWith_member operand hs
  rw [h₁]
  exact complete_namedWith hc ho name hn hs₁ hl hk

/-- A declared name is never taken for a call, since `=` stands behind it. -/
theorem referenceWith_of_assignment (operand : Production Expr) {s : State} {name : String} {ts : List Token}
    (hs : Sees s (.identifier name :: .punct '=' :: ts)) :
    ∃ x t, referenceWith operand s = .ok (.var x) t ∧ Sees t (.punct '=' :: ts) := by
  obtain ⟨s₁, h₁, hs₁, _⟩ := referenceWith_eq_namedWith operand hs (by simp)
  rw [h₁, namedWith, get_bind, current_bind, if_neg (by simp [hs₁.current_eq, Token.isPunct])]
  exact ⟨_, s₁, rfl, hs₁⟩

/-- A derivable declaration is read. -/
theorem complete_declarationWith (hc : Consumes operand) (ho : CompleteOperand n operand) (hK : Follow K) {s : State}
    {name : String} {ts us : List Token} (hn : ts.length + 2 ≤ n)
    (hs : Sees s (.keyword .var :: .identifier name :: .punct '=' :: ts)) (hd : Derives .expression ts us) (hk : K us) :
    ∃ e t vs, declarationWith operand s = .ok e t ∧ Sees t vs ∧ K vs := by
  obtain ⟨s₁, h₁, hs₁⟩ := hs.advance
  obtain ⟨x, s₂, h₂, hs₂⟩ := referenceWith_of_assignment operand hs₁
  have hops : Then .operations K (.punct '=' :: ts) := by
    cases hd with
    | expression hp hops => exact ⟨us, .operation (by decide) hp hops, hk⟩
  obtain ⟨rest, s₃, vs, h₃, hs₃, hk₃⟩ := complete_chain hc ho hK n (by simp; omega) (by simp; omega) hs₂ hops
  obtain ⟨e, h₄, hgroup⟩ := operationsWith_of_chain hc (.var x) h₃
  -- the chain begins with the operator that stands there
  obtain ⟨op, right, more, rfl, hop⟩ : ∃ op right more, rest = (op, right) :: more ∧ op.symbol = '=' := by
    have hcur : Operator.ofToken? s₂.current = some ⟨'=', 2⟩ := by
      rw [hs₂.current_eq]
      rfl
    rcases chain_ok_cases hc h₃ with ⟨_, _, hstop⟩ | ⟨op, right, more, _, _, hrest, hop, _⟩
    · exact absurd (hstop _ hcur) (Nat.not_lt_zero _)
    · rw [hcur] at hop
      cases hop
      exact ⟨_, right, more, hrest, rfl⟩
  obtain ⟨value, hsplit, _⟩ := hgroup.splitAssignment rfl (chain_operators hc h₃) rfl hop
  rw [declarationWith, bind_of_ok h₁, bind_of_ok h₂]
  dsimp only
  rw [bind_of_ok h₄, declared, hsplit]
  exact ⟨_, _, vs, rfl, hs₃.note _, hk₃⟩

/-- An expression behind separators is read once these are passed over. -/
theorem complete_separated (hc : Consumes operand) (ho : CompleteOperand n operand) (hK : Follow K) {s : State}
    {ts us vs : List Token} (hn : ts.length ≤ n) (hs : Sees s ts) (hd : Derives .separators ts us)
    (he : Derives .expression us vs) (hk : K vs) :
    ∃ s₁ e t ws, skipStatementEnds s = .ok () s₁ ∧ expressionWith operand s₁ = .ok e t ∧ Sees t ws ∧ K ws ∧
      ws.length ≤ ts.length := by
  obtain ⟨s₁, h₁, hs₁⟩ := hs.skipStatementEnds
  have hlen := (List.dropWhile_sublist (· = Token.statementEnd) (l := ts)).length_le
  rw [hd.separators_eq, he.expression_dropWhile] at hs₁ hlen
  obtain ⟨e, s₂, ws, h₂, hs₂, hk₂⟩ := complete_expressionWith hc ho hK (Nat.le_trans hlen hn) hs₁ ⟨vs, he, hk⟩
  have hlt := length_lt_of_consumes (consumes_expressionWith hc) hs₁ hs₂ h₂
  exact ⟨s₁, e, s₂, ws, h₁, h₂, hs₂, hk₂, by omega⟩

/-- Once separators are passed over, the other branch is there or it is not. -/
theorem otherwise_dropWhile (hK : Follow K) {ts : List Token} (h : Then .separators (Then .otherwise K) ts) :
    Then .otherwise K (ts.dropWhile (· = .statementEnd)) := by
  induction ts with
  | nil =>
    obtain ⟨us, hd, hk⟩ := h
    cases hd
    exact hk
  | cons token ts ih =>
    by_cases htoken : token = .statementEnd
    · subst htoken
      simpa using ih (hK.branch.separator h)
    · obtain ⟨us, hd, hk⟩ := h
      cases hd with
      | noSeparator => simpa [htoken] using hk
      | separator => exact absurd rfl htoken

/-- The other branch of a condition is read where there is a derivable one, and left out where there is none. -/
theorem complete_otherwiseWith (hc : Consumes operand) (ho : CompleteOperand n operand) (hK : Follow K) :
    CompleteAt n .otherwise K (otherwiseWith operand) := by
  intro s ts hn hs hk
  rw [otherwiseWith, current_bind]
  by_cases helse : s.current = .keyword .else_
  · rw [if_pos helse]
    cases ts with
    | nil => rw [hs.current_nil] at helse; cases helse
    | cons token ts =>
      obtain rfl : token = .keyword .else_ := hs.current_eq.symm.trans helse
      -- an `else` that the derivation left to something outside is taken as well
      obtain ⟨us, vs, hsep, he, hk⟩ : ∃ us vs, Derives .separators ts us ∧ Derives .expression us vs ∧ K vs := by
        obtain ⟨us, hd, hk⟩ := hk
        cases hd with
        | noOtherwise => exact hK.otherwise hk
        | otherwise hsep he => exact ⟨_, us, hsep, he, hk⟩
      obtain ⟨s₁, h₁, hs₁⟩ := hs.advance
      obtain ⟨s₂, e, s₃, ws, h₂, h₃, hs₃, hk₃, _⟩ := complete_separated hc ho hK (Nat.le_of_succ_le hn) hs₁ hsep he hk
      rw [bind_of_ok h₁, bind_of_ok h₂, map_eq_bind, bind_of_ok h₃]
      exact ⟨some e, s₃, ws, rfl, hs₃, hk₃⟩
  · rw [if_neg helse]
    refine ⟨none, s, ts, rfl, hs, ?_⟩
    obtain ⟨us, hd, hk⟩ := hk
    cases hd with
    | noOtherwise => exact hk
    | otherwise => exact absurd hs.current_eq helse

/-- A derivable condition is read, with separators on either side of its first branch. -/
theorem complete_conditionalWith (hc : Consumes operand) (ho : CompleteOperand n operand) (hK : Follow K) {s : State}
    {ts us vs ws : List Token} (hn : ts.length ≤ n) (hs : Sees s (.keyword .if_ :: .punct '(' :: ts))
    (htest : Derives .expression ts (.punct ')' :: us)) (hsep : Derives .separators us vs) (hyes : Derives .expression vs ws)
    (hk : Then .separators (Then .otherwise K) ws) :
    ∃ e t xs, conditionalWith operand s = .ok e t ∧ Sees t xs ∧ K xs := by
  obtain ⟨s₁, h₁, hs₁⟩ := hs.advance
  obtain ⟨s₂, h₂, hs₂⟩ := hs₁.expectPunct "'(' after 'if'"
  -- behind the test stands its parenthesis, and behind that the rest of the condition
  let rest : List Token → Prop := Then .separators (Then .expression (Then .separators (Then .otherwise K)))
  obtain ⟨test, s₃, _, h₃, hs₃, us, rfl, vs, hsep, ws, hyes, hk⟩ :=
    complete_expressionWith hc ho (.close rest) hn hs₂ ⟨_, htest, us, rfl, vs, hsep, ws, hyes, hk⟩
  have hlt := length_lt_of_consumes (consumes_expressionWith hc) hs₂ hs₃ h₃
  simp only [List.length_cons] at hlt
  obtain ⟨s₄, h₄, hs₄⟩ := hs₃.expectPunct "')' after the if condition"
  obtain ⟨s₅, yes, s₆, xs, h₅, h₆, hs₆, hk₆, hle⟩ :=
    complete_separated hc ho hK.branch (by omega) hs₄ hsep hyes hk
  obtain ⟨s₇, h₇, hs₇⟩ := hs₆.skipStatementEnds
  have hdrop := (List.dropWhile_sublist (· = Token.statementEnd) (l := xs)).length_le
  obtain ⟨no, s₈, ys, h₈, hs₈, hk₈⟩ := complete_otherwiseWith hc ho hK (by omega) hs₇ (otherwise_dropWhile hK hk₆)
  rw [conditionalWith, bind_of_ok h₁, bind_of_ok h₂, bind_of_ok h₃, bind_of_ok h₄, bind_of_ok h₅, bind_of_ok h₆,
    bind_of_ok h₇, bind_of_ok h₈]
  exact ⟨_, _, ys, rfl, hs₈.note _, hk₈⟩

/-- A derivable expression in parentheses is read. -/
theorem complete_groupingWith (hc : Consumes operand) (ho : CompleteOperand n operand) {s : State} {ts us : List Token}
    (hn : ts.length ≤ n) (hs : Sees s (.punct '(' :: ts)) (hd : Derives .expression ts (.punct ')' :: us)) (hk : K us) :
    ∃ e t vs, groupingWith operand s = .ok e t ∧ Sees t vs ∧ K vs := by
  obtain ⟨s₁, h₁, hs₁⟩ := hs.advance
  obtain ⟨inner, s₂, _, h₂, hs₂, vs, rfl, hk₂⟩ :=
    complete_expressionWith hc ho (.close K) hn hs₁ ⟨_, hd, us, rfl, hk⟩
  obtain ⟨s₃, h₃, hs₃⟩ := hs₂.expectPunct "')' to close the parenthesized expression"
  rw [groupingWith, bind_of_ok h₁, bind_of_ok h₂, bind_of_ok h₃]
  exact ⟨inner, s₃, vs, rfl, hs₃, hk₂⟩

/-- In front of a token that ends no block and separates nothing, the inside of a block begins with a statement. -/
theorem Derives.statement_inv {token : Token} {ts us : List Token} (h : Derives .statements (token :: ts) us)
    (hclose : token ≠ .punct '}') (hfunction : token ≠ .keyword .function) (hsep : token ≠ .statementEnd) :
    Then .expression (fun vs => Derives .statements vs us) (token :: ts) := by
  cases h with
  | closed => exact absurd rfl hclose
  | beforeFunction => exact absurd rfl hfunction
  | statementSeparator => exact absurd rfl hsep
  | statement he hd => exact ⟨_, he, hd⟩

/-- Derivable statements are read up to where none can begin, by induction on the bound. -/
theorem complete_statementsUpTo (hc : Consumes operand) (ho : CompleteOperand n operand) (m : Nat) :
    ∀ {s : State} {ts : List Token}, ts.length ≤ m → ts.length ≤ n → Sees s ts → Then .statements K ts →
      ∃ a t us, statementsUpTo operand m s = .ok a t ∧ Sees t us ∧ K us := by
  induction m with
  | zero =>
    rintro s ts hm _ hs ⟨us, hd, hk⟩
    obtain rfl := List.eq_nil_of_length_eq_zero (Nat.le_zero.mp hm)
    cases hd with
    | beforeEnd => exact ⟨[], s, [], rfl, hs, hk⟩
    | statement he _ =>
      obtain ⟨_, _, heq, _⟩ := he.expression_starts
      cases heq
  | succ m ih =>
    rintro s ts hm hn hs ⟨us, hd, hk⟩
    obtain ⟨s₁, h₁, hs₁⟩ := hs.skipStatementEnds
    have hlen := (List.dropWhile_sublist (· = Token.statementEnd) (l := ts)).length_le
    have hhead := List.head?_dropWhile_not (· = Token.statementEnd) ts
    have hd₁ := hd.statements_dropWhile
    rw [statementsUpTo, bind_of_ok h₁, current_bind]
    generalize ts.dropWhile (· = .statementEnd) = rest at hs₁ hlen hhead hd₁
    cases rest with
    | nil =>
      rw [hs₁.current_nil]
      cases hd₁ with
      | beforeEnd => exact ⟨[], s₁, [], rfl, hs₁, hk⟩
      | statement he _ =>
        obtain ⟨_, _, heq, _⟩ := he.expression_starts
        cases heq
    | cons token rest =>
      rw [hs₁.current_eq]
      split
      · -- the brace that ends the block is read
        obtain ⟨s₂, h₂, hs₂⟩ := hs₁.advance
        rw [bind_of_ok h₂]
        cases hd₁ with
        | closed => exact ⟨[], s₂, us, rfl, hs₂, hk⟩
        | statement he _ => exact (he.not_expression rfl).elim
      · exact absurd hs₁.current_eq hs₁.current_ne_end
      · cases hd₁ with
        | beforeFunction => exact ⟨[], s₁, _, rfl, hs₁, hk⟩
        | statement he _ => exact (he.not_expression rfl).elim
      · rename_i hclose _ hfunction
        have hsep : token ≠ .statementEnd := by simpa using hhead
        obtain ⟨vs, he, hd₂⟩ := hd₁.statement_inv hclose hfunction hsep
        obtain ⟨statement, s₂, ws, h₂, hs₂, hk₂⟩ :=
          complete_expressionWith hc ho (.statements K) (by omega) hs₁ ⟨vs, he, us, hd₂, hk⟩
        have hlt := length_lt_of_consumes (consumes_expressionWith hc) hs₁ hs₂ h₂
        obtain ⟨more, s₃, xs, h₃, hs₃, hk₃⟩ := ih (by omega) (by omega) hs₂ hk₂
        rw [bind_of_ok h₂, bind_of_ok h₃]
        exact ⟨_, s₃, xs, rfl, hs₃, hk₃⟩

/-- A derivable block is read. -/
theorem complete_blockWith (hc : Consumes operand) (ho : CompleteOperand n operand) {s : State} {ts us : List Token}
    (hn : ts.length ≤ n + 1) (hs : Sees s ts) (hd : Derives .block ts us) (hk : K us) :
    ∃ e t vs, blockWith operand s = .ok e t ∧ Sees t vs ∧ K vs := by
  cases hd with
  | block hd =>
    obtain ⟨s₁, h₁, hs₁⟩ := hs.expectPunct r"'{'"
    obtain ⟨statements, s₂, vs, h₂, hs₂, hk₂⟩ :=
      complete_statementsUpTo hc ho _ (Nat.le_refl _) (Nat.le_of_succ_le_succ hn) hs₁.enter ⟨us, hd, hk⟩
    have hinside : insideBlock (bounded (statementsUpTo operand)) s₁ = .ok statements s₂.leave := by
      rw [insideBlock_apply, bounded_apply, State.remaining_enter, hs₁.remaining, h₂]
    rw [blockWith, bind_of_ok h₁, get_bind, bind_of_ok hinside]
    exact ⟨_, _, vs, rfl, hs₂.leave, hk₂⟩

/-- Operands one level deeper are read as well. -/
theorem complete_primaryWith (hc : Consumes operand) (ho : CompleteOperand n operand) :
    CompleteOperand (n + 1) (primaryWith operand) := by
  rintro K hK s ts hn hs ⟨us, hd, hk⟩
  have hK' := hK.operations
  rw [primaryWith, current_bind]
  cases hd with
  | number value ts =>
    obtain ⟨s₁, h₁, hs₁⟩ := hs.advance
    rw [hs.current_eq]
    dsimp only
    rw [bind_of_ok h₁]
    exact ⟨_, s₁, us, rfl, hs₁, hk⟩
  | bareName name ts =>
    rw [hs.current_eq]
    exact complete_bareName hc ho hK (Nat.le_of_succ_le_succ hn) hs hk
  | call name hl =>
    rw [hs.current_eq]
    simp only [List.length_cons] at hn
    exact complete_call hc ho (by omega) hs hl hk
  | memberCall name member hl =>
    rw [hs.current_eq]
    simp only [List.length_cons] at hn
    exact complete_memberCall hc ho (by omega) hs hl hk
  | ret he =>
    obtain ⟨s₁, h₁, hs₁⟩ := hs.advance
    obtain ⟨value, s₂, vs, h₂, hs₂, hk₂⟩ := complete_expressionWith hc ho hK' (Nat.le_of_succ_le_succ hn) hs₁ ⟨us, he, hk⟩
    rw [hs.current_eq]
    dsimp only
    rw [returnWith, bind_of_ok h₁, bind_of_ok h₂]
    exact ⟨_, s₂, vs, rfl, hs₂, hk₂⟩
  | declaration name he =>
    rw [hs.current_eq]
    simp only [List.length_cons] at hn
    exact complete_declarationWith hc ho hK' (by omega) hs he hk
  | condition htest hsep hyes hsep' hno =>
    rw [hs.current_eq]
    simp only [List.length_cons] at hn
    exact complete_conditionalWith hc ho hK' (by omega) hs htest hsep hyes ⟨_, hsep', us, hno, hk⟩
  | grouping he =>
    rw [hs.current_eq]
    exact complete_groupingWith hc ho (Nat.le_of_succ_le_succ hn) hs he hk
  | primaryBlock hb =>
    have hcur : s.current = .punct '{' := by
      cases hb with
      | block => exact hs.current_eq
    rw [hcur]
    exact complete_blockWith hc ho hn hs hb hk

end

/-- No operand fails in front of a derivable one, by induction on the bound on nesting. -/
theorem complete_primaryUpTo (n : Nat) : CompleteOperand n (primaryUpTo n) := by
  induction n with
  | zero =>
    rintro K _ s ts hn _ ⟨us, hd, _⟩
    obtain ⟨_, _, rfl, _⟩ := hd.primary_starts
    cases hn
  | succ n ih => exact complete_primaryWith (consumes_primaryUpTo n) ih

/-- A derivable operand is read, however deep it is. -/
theorem complete_primary (n : Nat) : CompleteOperand n primary := by
  intro K hK s ts _ hs hd
  rw [primary, bounded_apply, hs.remaining]
  exact complete_primaryUpTo _ hK (Nat.le_refl _) hs hd

/-- No expression fails in front of a derivable one, in a place that gives way to it. -/
theorem complete_expression {K : List Token → Prop} (hK : Follow K) (n : Nat) : CompleteAt n .expression K expression :=
  complete_expressionWith consumes_primary (complete_primary n) hK

/-- A derivable function is read. -/
theorem complete_function {K : List Token → Prop} {s : State} {ts us : List Token} (hs : Sees s ts)
    (hd : Derives .function ts us) (hk : K us) : ∃ f t vs, function s = .ok f t ∧ Sees t vs ∧ K vs := by
  cases hd with
  | function name hl hsep hb =>
    obtain ⟨s₁, h₁, hs₁⟩ := hs.advance
    obtain ⟨s₂, h₂, hs₂⟩ := hs₁.identifier "a function name"
    obtain ⟨s₃, h₃, hs₃⟩ := hs₂.expectPunct "'(' after the function name"
    have hitem : ∀ {n : Nat} {K : List Token → Prop}, Follow K → CompleteAt n .name K (identifier "a parameter name") := by
      rintro n K _ s ts _ hs ⟨us, hd, hk⟩
      cases hd with
      | name param =>
        obtain ⟨t, ht, hs'⟩ := hs.identifier "a parameter name"
        exact ⟨param, t, us, ht, hs', hk⟩
    have hstart : ∀ {ts us : List Token}, ¬Derives .name (.punct ')' :: ts) us := by
      intro ts us hd
      cases hd
    obtain ⟨params, s₄, vs, h₄, hs₄, ws, hsep, xs, hb, hk⟩ := complete_commaSeparated (consumes_identifier _) hitem hstart
      (Nat.le_refl _) hs₃ (K := Then .separators (Then .block K)) ⟨_, hl, _, rfl, _, hsep, us, hb, hk⟩
    obtain ⟨s₅, h₅, hs₅⟩ := hs₄.skipStatementEnds
    have hprototype : prototype s₁ = .ok { name, params } s₄ := by
      rw [prototype, bind_of_ok h₂, bind_of_ok h₃, bind_of_ok h₄]
      rfl
    have hopen : ws.dropWhile (· = .statementEnd) = ws ∧ ∃ zs, ws = .punct '{' :: zs := by
      cases hb
      simp
    obtain ⟨hws, zs, rfl⟩ := hopen
    rw [hsep.separators_eq, hws] at hs₅
    obtain ⟨body, s₆, ys, h₆, hs₆, hk₆⟩ :=
      complete_blockWith consumes_primary (complete_primary _) (Nat.le_succ _) hs₅ hb hk
    rw [function, bind_of_ok h₁, bind_of_ok hprototype, bind_of_ok h₅, current_bind, hs₅.current_eq, if_neg (by decide),
      bind_of_ok (show block s₅ = .ok body s₆ from h₆)]
    exact ⟨_, _, ys, rfl, hs₆.note _, hk₆⟩

end Offside.Grammar
