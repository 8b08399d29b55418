import Offside.Grammar.Script
import Offside.Proofs.Grammar.Declaration
import Offside.Proofs.Grammar.Derivation
import Offside.Proofs.Grammar.Lookahead

/-!
# What is read is derivable

A production that succeeds has used up a piece that its symbol derives. Each production is shown to do so for operands that do so,
and the operands follow by induction on their bound.
-/

namespace Offside.Grammar

open Production

/-- Where a production succeeds, what it has used up is a piece of the symbol. -/
def Sound {α : Type} (x : Symbol) (p : Production α) : Prop :=
  ∀ {s t : State} {a : α} {ts : List Token}, Sees s ts → p s = .ok a t → ∃ us, Sees t us ∧ Derives x ts us

/-- A run of separators is a piece of separators. -/
theorem sound_skipStatementEnds : Sound .separators skipStatementEnds := by
  intro s t _ ts hs h
  obtain ⟨t', ht', hs'⟩ := hs.skipStatementEnds
  rw [ht'] at h
  cases h
  exact ⟨_, hs', Derives.separators_dropWhile ts⟩

/-- An identifier is a name. -/
theorem sound_identifier (expected : String) : Sound .name (identifier expected) := by
  intro s t n ts hs h
  obtain ⟨us, rfl, hs'⟩ := hs.identifier_ok h
  exact ⟨us, hs', .name n us⟩

/-- A character that is read only where it stands. -/
theorem sees_of_advance {s t : State} {token : Token} {ts : List Token} (hs : Sees s ts) (hc : s.current = token)
    (hend : token ≠ .endOfInput) (h : advance s = .ok () t) : ∃ us, ts = token :: us ∧ Sees t us := by
  cases ts with
  | nil => exact absurd (hc.symm.trans hs.current_nil) hend
  | cons u us =>
    obtain rfl : u = token := hs.current_eq.symm.trans hc
    exact ⟨us, rfl, hs.advance_ok h⟩

theorem current_of_isPunct {t : Token} {c : Char} (h : t.isPunct c = true) : t = .punct c := eq_of_beq h

variable {α : Type} {x : Symbol} {item : Production α} {operand : Production Expr}

/-- Items are derived one by one, up to the parenthesis that ends them. The induction is on the bound. -/
theorem sound_itemsUpTo (h : Sound x item) (n : Nat) :
    ∀ {s t : State} {a : List α} {ts : List Token}, Sees s ts → itemsUpTo item n s = .ok a t →
      ∃ us, Sees t us ∧ Derives (.items x) ts (.punct ')' :: us) := by
  induction n with
  | zero => intro s t a ts _ hp; cases hp
  | succ n ih =>
    intro s t a ts hs hp
    obtain ⟨first, s₁, h₁, hp⟩ := bind_eq_ok.mp hp
    obtain ⟨us, hs₁, hfirst⟩ := h hs h₁
    rw [current_bind] at hp
    split at hp
    · rename_i hcomma
      obtain ⟨_, s₂, h₂, hp⟩ := bind_eq_ok.mp hp
      obtain ⟨rest, s₃, h₃, hp⟩ := bind_eq_ok.mp hp
      cases hp
      obtain ⟨vs, rfl, hs₂⟩ := sees_of_advance hs₁ (current_of_isPunct hcomma) (by simp) h₂
      obtain ⟨ws, hs₃, hrest⟩ := ih hs₂ h₃
      exact ⟨ws, hs₃, .item hfirst hrest⟩
    · rw [current_bind] at hp
      split at hp
      · rename_i hclose
        obtain ⟨_, s₂, h₂, hp⟩ := bind_eq_ok.mp hp
        cases hp
        obtain ⟨vs, rfl, hs₂⟩ := sees_of_advance hs₁ (current_of_isPunct hclose) (by simp) h₂
        exact ⟨vs, hs₂, .lastItem hfirst⟩
      · cases hp

/-- A list is empty or made of items. -/
theorem sound_commaSeparated (h : Sound x item) {s t : State} {a : List α} {ts : List Token} (hs : Sees s ts)
    (hp : commaSeparated item s = .ok a t) : ∃ us, Sees t us ∧ Derives (.list x) ts (.punct ')' :: us) := by
  rw [commaSeparated, current_bind] at hp
  split at hp
  · rename_i hclose
    obtain ⟨_, s₁, h₁, hp⟩ := bind_eq_ok.mp hp
    cases hp
    obtain ⟨us, rfl, hs₁⟩ := sees_of_advance hs (current_of_isPunct hclose) (by simp) h₁
    exact ⟨us, hs₁, .emptyList _ _⟩
  · obtain ⟨us, hs₁, hitems⟩ := sound_itemsUpTo h _ hs hp
    exact ⟨us, hs₁, .list hitems⟩

/-- The operators of a chain are derivable as operations. -/
theorem sound_chain (hc : Consumes operand) (ho : Sound .primary operand) {least : Nat} {rest : List (Operator × Expr)} :
    ∀ {s t : State} {ts : List Token}, Sees s ts → chain operand least s = .ok rest t →
      ∃ us, Sees t us ∧ Derives .operations ts us := by
  induction rest with
  | nil =>
    intro s t ts hs h
    rcases chain_ok_cases hc h with ⟨_, rfl, _⟩ | ⟨_, _, _, _, _, hcons, _⟩
    · exact ⟨ts, hs, .noOperation ts⟩
    · cases hcons
  | cons y more ih =>
    intro s t ts hs h
    rcases chain_ok_cases hc h with ⟨hnil, _⟩ | ⟨op, right, _, s₁, s₂, hcons, hop, _, h₁, h₂, hmore⟩
    · cases hnil
    · cases hcons
      obtain ⟨us, rfl, hs₁⟩ := sees_of_advance hs (Operator.eq_punct_of_ofToken? hop) (by simp) h₁
      obtain ⟨vs, hs₂, hright⟩ := ho hs₁ h₂
      obtain ⟨ws, hs₃, hrest⟩ := ih hs₂ hmore
      exact ⟨ws, hs₃, .operation (symbol_mem_operatorSymbols op (Operator.mem_all_of_ofToken? hop)) hright hrest⟩

/-- Operations are derived without regard to precedence: an operator and an operand, as often as there is one. -/
theorem sound_operationsWith (hc : Consumes operand) (ho : Sound .primary operand) (least : Nat) (left : Expr) :
    Sound .operations (operationsWith operand least left) := by
  intro s t e ts hs h
  obtain ⟨rest, hchain, _⟩ := chain_of_operationsWith hc h
  exact sound_chain hc ho hs hchain

/-- An expression is an operand with operations behind it. -/
theorem sound_expressionWith (hc : Consumes operand) (ho : Sound .primary operand) :
    Sound .expression (expressionWith operand) := by
  intro s t e ts hs h
  obtain ⟨left, s₁, h₁, h⟩ := bind_eq_ok.mp h
  obtain ⟨us, hs₁, hleft⟩ := ho hs h₁
  obtain ⟨vs, hs₂, hrest⟩ := sound_operationsWith hc ho 0 left hs₁ h
  exact ⟨vs, hs₂, .expression hleft hrest⟩

/-- A member is read behind a point, and only there. -/
theorem member_ok {s t : State} {m : Option String} {ts : List Token} (hs : Sees s ts) (h : member? s = .ok m t) :
    (m = none ∧ t = s) ∨ ∃ name us, m = some name ∧ ts = .punct '.' :: .identifier name :: us ∧ Sees t us := by
  rw [member?, current_bind] at h
  split at h
  · rename_i hpoint
    obtain ⟨_, s₁, h₁, h⟩ := bind_eq_ok.mp h
    obtain ⟨us, rfl, hs₁⟩ := sees_of_advance hs (current_of_isPunct hpoint) (by simp) h₁
    rw [map_eq_bind] at h
    obtain ⟨name, s₂, h₂, h⟩ := bind_eq_ok.mp h
    cases h
    obtain ⟨vs, rfl, hs₂⟩ := hs₁.identifier_ok h₂
    exact Or.inr ⟨name, vs, rfl, rfl, hs₂⟩
  · cases h
    exact Or.inl ⟨rfl, rfl⟩

/-- A name is a variable, or it is called with the arguments behind it. -/
theorem namedWith_ok (hc : Consumes operand) (ho : Sound .primary operand) {s t : State} {first : String} {m : Option String}
    {e : Expr} {ts : List Token} (hs : Sees s ts) (h : namedWith operand first m s = .ok e t) :
    (m = none ∧ t = s ∧ ∃ name, e = .var name) ∨
      (∃ name arguments, e = .call name arguments) ∧ ∃ us vs, ts = .punct '(' :: us ∧ Sees t vs ∧
        Derives (.list .expression) us (.punct ')' :: vs) := by
  rw [namedWith, get_bind, current_bind] at h
  split at h
  · obtain ⟨_, s₁, h₁, h⟩ := bind_eq_ok.mp h
    obtain ⟨us, rfl, hs₁⟩ := hs.expectPunct_ok h₁
    obtain ⟨arguments, s₂, h₂, h⟩ := bind_eq_ok.mp h
    obtain ⟨vs, hs₂, hlist⟩ := sound_commaSeparated (sound_expressionWith hc ho) hs₁ h₂
    cases h
    exact Or.inr ⟨⟨_, arguments, rfl⟩, us, vs, rfl, hs₂.note _, hlist⟩
  · rename_i hm
    cases h
    cases m with
    | none => exact Or.inl ⟨rfl, rfl, _, rfl⟩
    | some m => simp at hm

/-- A reference begins with a name. If it is a variable, the name is all of it. -/
theorem referenceWith_ok (hc : Consumes operand) (ho : Sound .primary operand) {s t : State} {e : Expr} {ts : List Token}
    (hs : Sees s ts) (h : referenceWith operand s = .ok e t) :
    (∃ n us name, ts = .identifier n :: us ∧ Sees t us ∧ e = .var name) ∨
      (∃ name arguments, e = .call name arguments) ∧ ∃ us, Sees t us ∧ Derives .primary ts us := by
  obtain ⟨first, s₁, h₁, hrest⟩ := bind_eq_ok.mp h
  obtain ⟨us, rfl, hs₁⟩ := hs.identifier_ok h₁
  obtain ⟨m, s₂, h₂, hnamed⟩ := bind_eq_ok.mp hrest
  rcases member_ok hs₁ h₂ with ⟨rfl, rfl⟩ | ⟨member, vs, rfl, rfl, hs₂⟩
  · rcases namedWith_ok hc ho hs₁ hnamed with ⟨_, rfl, name, rfl⟩ | ⟨hcall, vs, ws, rfl, hs₃, hlist⟩
    · exact Or.inl ⟨first, us, name, rfl, hs₁, rfl⟩
    · exact Or.inr ⟨hcall, ws, hs₃, .call first hlist⟩
  · rcases namedWith_ok hc ho hs₂ hnamed with ⟨hm, _⟩ | ⟨hcall, vs, ws, rfl, hs₃, hlist⟩
    · cases hm
    · exact Or.inr ⟨hcall, ws, hs₃, .memberCall first member hlist⟩

/-- A reference is a name, or a callee with its arguments. -/
theorem sound_referenceWith (hc : Consumes operand) (ho : Sound .primary operand) :
    Sound .primary (referenceWith operand) := by
  intro s t e ts hs h
  rcases referenceWith_ok hc ho hs h with ⟨n, us, name, rfl, hs₁, rfl⟩ | ⟨_, hderives⟩
  · exact ⟨us, hs₁, .bareName n us⟩
  · exact hderives

theorem sound_returnWith (hc : Consumes operand) (ho : Sound .primary operand) {s t : State} {e : Expr} {ts : List Token}
    (hs : Sees s (.keyword .return_ :: ts)) (h : returnWith operand s = .ok e t) :
    ∃ us, Sees t us ∧ Derives .primary (.keyword .return_ :: ts) us := by
  obtain ⟨_, s₁, h₁, h⟩ := bind_eq_ok.mp h
  obtain ⟨value, s₂, h₂, h⟩ := bind_eq_ok.mp h
  cases h
  obtain ⟨us, hs₂, hvalue⟩ := sound_expressionWith hc ho (hs.advance_ok h₁) h₂
  exact ⟨us, hs₂, .ret hvalue⟩

/-- A chain declares a variable exactly if a variable is its first operand. -/
theorem declared_ok {name : String} {chained e : Expr} {s t : State} (h : declared name chained s = .ok e t) :
    ∃ x value, chained.splitAssignment? = some (.var x, value) ∧ e = .declaration name value ∧
      t = s.note (.declaration name) := by
  revert h
  unfold declared
  generalize hsplit : chained.splitAssignment? = parts
  split
  · rename_i x value
    intro h
    cases h
    exact ⟨x, value, rfl, rfl, rfl⟩
  · intro h
    cases h

/-- A declaration is `=` and an expression behind the declared name. -/
theorem sound_declarationWith (hc : Consumes operand) (ho : Sound .primary operand) {s t : State} {e : Expr}
    {ts : List Token} (hs : Sees s (.keyword .var :: ts)) (h : declarationWith operand s = .ok e t) :
    ∃ us, Sees t us ∧ Derives .primary (.keyword .var :: ts) us := by
  obtain ⟨_, s₁, h₁, h⟩ := bind_eq_ok.mp h
  obtain ⟨target, s₂, h₂, h⟩ := bind_eq_ok.mp h
  rcases referenceWith_ok hc ho (hs.advance_ok h₁) h₂ with ⟨n, us, name, rfl, hs₂, rfl⟩ | ⟨⟨name, arguments, rfl⟩, _⟩
  · obtain ⟨chained, s₃, h₃, h⟩ := bind_eq_ok.mp h
    obtain ⟨x, value, hsplit, rfl, rfl⟩ := declared_ok h
    obtain ⟨rest, hchain, hgroup⟩ := chain_of_operationsWith hc h₃
    obtain ⟨op, right, more, rfl, hop⟩ := hgroup.splitAssignment_var rfl hsplit
    rcases chain_ok_cases hc hchain with ⟨hnil, _⟩ | ⟨_, _, _, s₄, s₅, hcons, htoken, _, h₄, h₅, hmore⟩
    · cases hnil
    · cases hcons
      obtain ⟨vs, rfl, hs₄⟩ := sees_of_advance hs₂ (Operator.eq_punct_of_ofToken? htoken) (by simp) h₄
      obtain ⟨ws, hs₅, hright⟩ := ho hs₄ h₅
      obtain ⟨xs, hs₆, hrest⟩ := sound_chain hc ho hs₅ hmore
      refine ⟨xs, hs₆.note _, ?_⟩
      rw [hop]
      exact .declaration n (.expression hright hrest)
  · cases h

/-- The other branch is derived with the separators in front of `else`; without one the separators are all there is. -/
theorem sound_otherwiseWith (hc : Consumes operand) (ho : Sound .primary operand) :
    Sound .otherwise (otherwiseWith operand) := by
  intro s t no ts hs h
  rw [otherwiseWith, current_bind] at h
  split at h
  · rename_i helse
    obtain ⟨_, s₁, h₁, h⟩ := bind_eq_ok.mp h
    obtain ⟨us, rfl, hs₁⟩ := sees_of_advance hs helse (by simp) h₁
    obtain ⟨_, s₂, h₂, h⟩ := bind_eq_ok.mp h
    obtain ⟨vs, hs₂, hskip⟩ := sound_skipStatementEnds hs₁ h₂
    rw [map_eq_bind] at h
    obtain ⟨e, s₃, h₃, h⟩ := bind_eq_ok.mp h
    cases h
    obtain ⟨ws, hs₃, he⟩ := sound_expressionWith hc ho hs₂ h₃
    exact ⟨ws, hs₃, .otherwise hskip he⟩
  · cases h
    exact ⟨ts, hs, .noOtherwise ts⟩

/-- A condition is derived with the parentheses around its test. -/
theorem sound_conditionalWith (hc : Consumes operand) (ho : Sound .primary operand) {s t : State} {e : Expr}
    {ts : List Token} (hs : Sees s (.keyword .if_ :: ts)) (h : conditionalWith operand s = .ok e t) :
    ∃ us, Sees t us ∧ Derives .primary (.keyword .if_ :: ts) us := by
  have hexpr : Sound .expression (expressionWith operand) := sound_expressionWith hc ho
  obtain ⟨_, s₁, h₁, h⟩ := bind_eq_ok.mp h
  obtain ⟨_, s₂, h₂, h⟩ := bind_eq_ok.mp h
  obtain ⟨us, rfl, hs₂⟩ := (hs.advance_ok h₁).expectPunct_ok h₂
  obtain ⟨test, s₃, h₃, h⟩ := bind_eq_ok.mp h
  obtain ⟨vs, hs₃, htest⟩ := hexpr hs₂ h₃
  obtain ⟨_, s₄, h₄, h⟩ := bind_eq_ok.mp h
  obtain ⟨vs, rfl, hs₄⟩ := hs₃.expectPunct_ok h₄
  obtain ⟨_, s₅, h₅, h⟩ := bind_eq_ok.mp h
  obtain ⟨ws, hs₅, hskip⟩ := sound_skipStatementEnds hs₄ h₅
  obtain ⟨yes, s₆, h₆, h⟩ := bind_eq_ok.mp h
  obtain ⟨xs, hs₆, hyes⟩ := hexpr hs₅ h₆
  obtain ⟨_, s₇, h₇, h⟩ := bind_eq_ok.mp h
  obtain ⟨ys, hs₇, hskip'⟩ := sound_skipStatementEnds hs₆ h₇
  obtain ⟨no, s₈, h₈, h⟩ := bind_eq_ok.mp h
  obtain ⟨zs, hs₈, hno⟩ := sound_otherwiseWith hc ho hs₇ h₈
  cases h
  exact ⟨zs, hs₈.note _, .condition htest hskip hyes hskip' hno⟩

/-- What parentheses enclose is an expression. -/
theorem sound_groupingWith (hc : Consumes operand) (ho : Sound .primary operand) {s t : State} {e : Expr}
    {ts : List Token} (hs : Sees s (.punct '(' :: ts)) (h : groupingWith operand s = .ok e t) :
    ∃ us, Sees t us ∧ Derives .primary (.punct '(' :: ts) us := by
  obtain ⟨_, s₁, h₁, h⟩ := bind_eq_ok.mp h
  obtain ⟨inner, s₂, h₂, h⟩ := bind_eq_ok.mp h
  obtain ⟨us, hs₂, hinner⟩ := sound_expressionWith hc ho (hs.advance_ok h₁) h₂
  obtain ⟨_, s₃, h₃, h⟩ := bind_eq_ok.mp h
  obtain ⟨vs, rfl, hs₃⟩ := hs₂.expectPunct_ok h₃
  cases h
  exact ⟨vs, hs₃, .grouping hinner⟩

/-- Separators in front of statements may be put back. -/
theorem derives_statements_of_separators {ts us vs : List Token} (h : Derives .separators ts us)
    (h' : Derives .statements us vs) : Derives .statements ts vs := by
  generalize hx : Symbol.separators = x at h
  induction h with
  | noSeparator => exact h'
  | separator _ ih => exact .statementSeparator (ih h' hx)
  | _ => cases hx

/-- The statements of a block are derived up to its end, whatever that is. -/
theorem sound_statementsUpTo (hc : Consumes operand) (ho : Sound .primary operand) (n : Nat) :
    ∀ {s t : State} {a : List Expr} {ts : List Token}, s.remaining ≤ n → Sees s ts → statementsUpTo operand n s = .ok a t →
      ∃ us, Sees t us ∧ Derives .statements ts us := by
  induction n with
  | zero =>
    intro s t a ts hn hs h
    cases h
    have hlen : ts = [] := List.eq_nil_of_length_eq_zero (hs.remaining.symm.trans (Nat.le_zero.mp hn))
    subst hlen
    exact ⟨[], hs, .beforeEnd⟩
  | succ n ih =>
    intro s t a ts hn hs h
    obtain ⟨_, s₁, h₁, h⟩ := bind_eq_ok.mp h
    obtain ⟨us, hs₁, hskip⟩ := sound_skipStatementEnds hs h₁
    have hle := (Agree.skipStatementEnds s (Nat.le_refl _)).bound _ _ h₁
    suffices hgoal : ∃ vs, Sees t vs ∧ Derives .statements us vs by
      obtain ⟨vs, hs₂, hd⟩ := hgoal
      exact ⟨vs, hs₂, derives_statements_of_separators hskip hd⟩
    rw [current_bind] at h
    revert h
    generalize hcur : s₁.current = token
    split
    · intro h
      obtain ⟨_, s₂, h₂, h⟩ := bind_eq_ok.mp h
      cases h
      obtain ⟨vs, rfl, hs₂⟩ := sees_of_advance hs₁ hcur (by simp) h₂
      exact ⟨vs, hs₂, .closed vs⟩
    · intro h
      cases h
      cases us with
      | nil => exact ⟨[], hs₁, .beforeEnd⟩
      | cons u us => exact absurd hcur hs₁.current_ne_end
    · intro h
      cases h
      cases us with
      | nil => exact absurd (hs₁.current_nil.symm.trans hcur) (by simp)
      | cons u us =>
        obtain rfl : u = .keyword .function := hs₁.current_eq.symm.trans hcur
        exact ⟨_, hs₁, .beforeFunction us⟩
    · intro h
      obtain ⟨statement, s₂, h₂, h⟩ := bind_eq_ok.mp h
      obtain ⟨rest, s₃, h₃, h⟩ := bind_eq_ok.mp h
      cases h
      obtain ⟨vs, hs₂, hstatement⟩ := sound_expressionWith hc ho hs₁ h₂
      have hlt := consumes_expressionWith hc _ _ _ h₂
      obtain ⟨ws, hs₃, hrest⟩ := ih (by omega) hs₂ h₃
      exact ⟨ws, hs₃, .statement hstatement hrest⟩

/-- What succeeds inside a block has succeeded with one more block open. -/
theorem insideBlock_ok {p : Production α} {s t : State} {a : α} (h : insideBlock p s = .ok a t) :
    ∃ t', p s.enter = .ok a t' ∧ t = t'.leave := by
  rw [insideBlock_apply] at h
  cases hp : p s.enter with
  | ok b t' =>
    rw [hp] at h
    cases h
    exact ⟨t', rfl, rfl⟩
  | error d t' =>
    rw [hp] at h
    cases h

/-- A block is a brace with statements behind it. -/
theorem sound_blockWith (hc : Consumes operand) (ho : Sound .primary operand) : Sound .block (blockWith operand) := by
  intro s t e ts hs h
  obtain ⟨_, s₁, h₁, h⟩ := bind_eq_ok.mp h
  obtain ⟨us, rfl, hs₁⟩ := hs.expectPunct_ok h₁
  rw [get_bind] at h
  obtain ⟨statements, s₂, h₂, h⟩ := bind_eq_ok.mp h
  cases h
  obtain ⟨s₃, h₃, rfl⟩ := insideBlock_ok h₂
  obtain ⟨vs, hs₃, hd⟩ := sound_statementsUpTo hc ho _ (Nat.le_refl _) hs₁.enter h₃
  exact ⟨vs, hs₃.leave, .block hd⟩

/-- The symbols of an operand are told apart by its first token. -/
theorem sound_primaryWith (hc : Consumes operand) (ho : Sound .primary operand) : Sound .primary (primaryWith operand) := by
  intro s t e ts hs h
  rw [primaryWith, current_bind] at h
  cases ts with
  | nil =>
    rw [hs.current_nil] at h
    cases h
  | cons token ts =>
    rw [hs.current_eq] at h
    revert h
    split
    · intro h
      obtain ⟨_, s₁, h₁, h⟩ := bind_eq_ok.mp h
      cases h
      exact ⟨ts, hs.advance_ok h₁, .number _ ts⟩
    · exact fun h => sound_referenceWith hc ho hs h
    · exact fun h => sound_returnWith hc ho hs h
    · exact fun h => sound_declarationWith hc ho hs h
    · exact fun h => sound_conditionalWith hc ho hs h
    · exact fun h => sound_groupingWith hc ho hs h
    · intro h
      obtain ⟨us, hs₁, hd⟩ := sound_blockWith hc ho hs h
      exact ⟨us, hs₁, .primaryBlock hd⟩
    · intro h
      cases h

/-- The circle is closed by induction on the bound. -/
theorem sound_primaryUpTo (n : Nat) : Sound .primary (primaryUpTo n) := by
  induction n with
  | zero => intro s t e ts _ h; cases h
  | succ n ih => exact sound_primaryWith (consumes_primaryUpTo n) ih

/-- An operand that is read is derivable. -/
theorem sound_primary : Sound .primary primary :=
  fun hs h => sound_primaryUpTo _ hs h

/-- What is read as an expression can be derived as one. -/
theorem sound_expression : Sound .expression expression :=
  sound_expressionWith consumes_primary sound_primary

/-- The header of a function is a name with a list of names. -/
theorem prototype_ok {s t : State} {f : Prototype} {ts : List Token} (hs : Sees s ts) (h : prototype s = .ok f t) :
    ∃ us vs, ts = .identifier f.name :: .punct '(' :: us ∧ Sees t vs ∧ Derives (.list .name) us (.punct ')' :: vs) := by
  obtain ⟨name, s₁, h₁, h⟩ := bind_eq_ok.mp h
  obtain ⟨us, rfl, hs₁⟩ := hs.identifier_ok h₁
  obtain ⟨_, s₂, h₂, h⟩ := bind_eq_ok.mp h
  obtain ⟨vs, rfl, hs₂⟩ := hs₁.expectPunct_ok h₂
  obtain ⟨params, s₃, h₃, h⟩ := bind_eq_ok.mp h
  obtain ⟨ws, hs₃, hlist⟩ := sound_commaSeparated (sound_identifier _) hs₂ h₃
  cases h
  exact ⟨vs, ws, rfl, hs₃, hlist⟩

/-- A function that is read is derivable. -/
theorem sound_function {s t : State} {f : Function} {ts : List Token} (hs : Sees s (.keyword .function :: ts))
    (h : function s = .ok f t) : ∃ us, Sees t us ∧ Derives .function (.keyword .function :: ts) us := by
  obtain ⟨_, s₁, h₁, h⟩ := bind_eq_ok.mp h
  obtain ⟨p, s₂, h₂, h⟩ := bind_eq_ok.mp h
  obtain ⟨us, vs, rfl, hs₂, hlist⟩ := prototype_ok (hs.advance_ok h₁) h₂
  obtain ⟨_, s₃, h₃, h⟩ := bind_eq_ok.mp h
  obtain ⟨ws, hs₃, hskip⟩ := sound_skipStatementEnds hs₂ h₃
  rw [current_bind] at h
  split at h
  · cases h
  · obtain ⟨body, s₄, h₄, h⟩ := bind_eq_ok.mp h
    cases h
    obtain ⟨xs, hs₄, hbody⟩ := sound_blockWith consumes_primary sound_primary hs₃ h₄
    exact ⟨xs, hs₄.note _, .function _ hlist hskip hbody⟩

end Offside.Grammar
