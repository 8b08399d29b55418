import Offside.Proofs.Grammar.Acceptance

/-!
# Derivations with more behind them

A piece of a token sequence is derivable whatever stands behind it, with one exception: a block that nothing closes ends only in front
of a function or of the end of the input. If all blocks are closed (`closesBlocks`), a derivation goes through with any tokens behind
it (`Derives.extends`).

An expression that takes up separators up to the end of the input does so for a condition, which looks for its other branch behind
them; so another branch may stand there (`Derives.awaits`).
-/

namespace Offside.Grammar

/-- Whether every block that the tokens open is closed, and every block that they close has been opened, where `n` blocks are open to
begin with. -/
@[simp] def closesBlocks : Nat → List Token → Bool
  | n, [] => n == 0
  | n, .punct '{' :: ts => closesBlocks (n + 1) ts
  | 0, .punct '}' :: _ => false
  | n + 1, .punct '}' :: ts => closesBlocks n ts
  | n, _ :: ts => closesBlocks n ts

/-- An operator opens and closes no block. -/
theorem closesBlocks_operator {c : Char} (hc : c ∈ operatorSymbols) (n : Nat) (ts : List Token) :
    closesBlocks n (.punct c :: ts) = closesBlocks n ts := by
  simp only [operatorSymbols, List.mem_cons, List.not_mem_nil, or_false] at hc
  rcases hc with rfl | rfl | rfl | rfl | rfl | rfl | rfl <;> simp

/-- Tokens that close their blocks may stand behind tokens that do. -/
theorem closesBlocks_append {n : Nat} {ts us : List Token} (h : closesBlocks n ts = true) (h' : closesBlocks 0 us = true) :
    closesBlocks n (ts ++ us) = true := by
  fun_induction closesBlocks n ts with
  | case1 n =>
    obtain rfl : n = 0 := by simpa using h
    exact h'
  | case2 n ts ih => exact ih h
  | case3 => cases h
  | case4 n ts ih => exact ih h
  | case5 n t ts hopen hzero hclose ih =>
    rw [List.cons_append, closesBlocks]
    · exact ih h
    all_goals assumption

/-- The number of blocks that what a symbol stands for closes more than it opens. -/
@[simp] def Symbol.inside : Symbol → Nat
  | .statements => 1
  | _ => 0

/-- The symbols that the grammar uses: the items of a list are names or expressions. -/
def Symbol.Used : Symbol → Prop
  | .items x | .list x => x = .name ∨ x = .expression
  | _ => True

/-- What stands behind a piece closes as many blocks as are open there, and the piece is derivable whatever stands behind it. -/
structure Extends (x : Symbol) (n : Nat) (ts us : List Token) : Prop where
  closes : ∃ m, n ≤ m ∧ closesBlocks m us = true
  append : x ≠ .program → ∀ vs, Derives x (ts ++ vs) (us ++ vs)

/-- Where all blocks are closed a piece is derivable whatever stands behind it. -/
theorem Derives.extends {x : Symbol} {ts us : List Token} (h : Derives x ts us) :
    x.Used → ∀ {n}, closesBlocks (n + x.inside) ts = true → Extends x n ts us := by
  induction h with
  | noSeparator ts => exact fun _ n hc => ⟨⟨n, Nat.le_refl _, hc⟩, fun _ vs => .noSeparator _⟩
  | separator _ ih =>
    intro _ n hc
    obtain ⟨hm, happ⟩ := ih trivial (n := n) (by simpa using hc)
    exact ⟨hm, fun hx vs => .separator (happ hx vs)⟩
  | name name ts => exact fun _ n hc => ⟨⟨n, Nat.le_refl _, by simpa using hc⟩, fun _ vs => .name name _⟩
  | @lastItem x ts us _ ih =>
    intro hx n hc
    obtain ⟨hm, happ⟩ := ih (by rcases hx with rfl | rfl <;> trivial) (n := n) (by rcases hx with rfl | rfl <;> exact hc)
    exact ⟨hm, fun _ vs => .lastItem (happ (by rcases hx with rfl | rfl <;> simp) vs)⟩
  | @item x ts us ws _ _ ih₁ ih₂ =>
    intro hx n hc
    obtain ⟨⟨m, hm, hc₁⟩, happ₁⟩ := ih₁ (by rcases hx with rfl | rfl <;> trivial) (n := n) (by rcases hx with rfl | rfl <;> exact hc)
    obtain ⟨⟨k, hk, hc₂⟩, happ₂⟩ := ih₂ hx (n := m) (by simpa using hc₁)
    exact ⟨⟨k, Nat.le_trans hm hk, hc₂⟩, fun hne vs => .item (happ₁ (by rcases hx with rfl | rfl <;> simp) vs) (happ₂ hne vs)⟩
  | emptyList x ts => exact fun _ n hc => ⟨⟨n, Nat.le_refl _, hc⟩, fun _ vs => .emptyList x _⟩
  | list _ ih =>
    intro hx n hc
    obtain ⟨hm, happ⟩ := ih hx (n := n) hc
    exact ⟨hm, fun _ vs => .list (happ (by simp) vs)⟩
  | expression _ _ ih₁ ih₂ =>
    intro _ n hc
    obtain ⟨⟨m, hm, hc₁⟩, happ₁⟩ := ih₁ trivial (n := n) hc
    obtain ⟨⟨k, hk, hc₂⟩, happ₂⟩ := ih₂ trivial (n := m) hc₁
    exact ⟨⟨k, Nat.le_trans hm hk, hc₂⟩, fun _ vs => .expression (happ₁ (by simp) vs) (happ₂ (by simp) vs)⟩
  | noOperation ts => exact fun _ n hc => ⟨⟨n, Nat.le_refl _, hc⟩, fun _ vs => .noOperation _⟩
  | operation hop _ _ ih₁ ih₂ =>
    intro _ n hc
    obtain ⟨⟨m, hm, hc₁⟩, happ₁⟩ := ih₁ trivial (n := n) (by rwa [closesBlocks_operator hop] at hc)
    obtain ⟨⟨k, hk, hc₂⟩, happ₂⟩ := ih₂ trivial (n := m) hc₁
    exact ⟨⟨k, Nat.le_trans hm hk, hc₂⟩, fun _ vs => .operation hop (happ₁ (by simp) vs) (happ₂ (by simp) vs)⟩
  | number value ts => exact fun _ n hc => ⟨⟨n, Nat.le_refl _, by simpa using hc⟩, fun _ vs => .number value _⟩
  | bareName name ts => exact fun _ n hc => ⟨⟨n, Nat.le_refl _, by simpa using hc⟩, fun _ vs => .bareName name _⟩
  | call name _ ih =>
    intro _ n hc
    obtain ⟨⟨m, hm, hc₁⟩, happ⟩ := ih (Or.inr rfl) (n := n) (by simpa using hc)
    exact ⟨⟨m, hm, by simpa using hc₁⟩, fun _ vs => .call name (happ (by simp) vs)⟩
  | memberCall name member _ ih =>
    intro _ n hc
    obtain ⟨⟨m, hm, hc₁⟩, happ⟩ := ih (Or.inr rfl) (n := n) (by simpa using hc)
    exact ⟨⟨m, hm, by simpa using hc₁⟩, fun _ vs => .memberCall name member (happ (by simp) vs)⟩
  | ret _ ih =>
    intro _ n hc
    obtain ⟨hm, happ⟩ := ih trivial (n := n) (by simpa using hc)
    exact ⟨hm, fun _ vs => .ret (happ (by simp) vs)⟩
  | declaration name _ ih =>
    intro _ n hc
    obtain ⟨hm, happ⟩ := ih trivial (n := n) (by simpa using hc)
    exact ⟨hm, fun _ vs => .declaration name (happ (by simp) vs)⟩
  | condition _ _ _ _ _ ih₁ ih₂ ih₃ ih₄ ih₅ =>
    intro _ n hc
    obtain ⟨⟨m₁, hm₁, hc₁⟩, happ₁⟩ := ih₁ trivial (n := n) (by simpa using hc)
    obtain ⟨⟨m₂, hm₂, hc₂⟩, happ₂⟩ := ih₂ trivial (n := m₁) (by simpa using hc₁)
    obtain ⟨⟨m₃, hm₃, hc₃⟩, happ₃⟩ := ih₃ trivial (n := m₂) hc₂
    obtain ⟨⟨m₄, hm₄, hc₄⟩, happ₄⟩ := ih₄ trivial (n := m₃) hc₃
    obtain ⟨⟨m₅, hm₅, hc₅⟩, happ₅⟩ := ih₅ trivial (n := m₄) hc₄
    exact ⟨⟨m₅, by omega, hc₅⟩, fun _ vs => .condition (happ₁ (by simp) vs) (happ₂ (by simp) vs) (happ₃ (by simp) vs)
      (happ₄ (by simp) vs) (happ₅ (by simp) vs)⟩
  | noOtherwise ts => exact fun _ n hc => ⟨⟨n, Nat.le_refl _, hc⟩, fun _ vs => .noOtherwise _⟩
  | otherwise _ _ ih₁ ih₂ =>
    intro _ n hc
    obtain ⟨⟨m, hm, hc₁⟩, happ₁⟩ := ih₁ trivial (n := n) (by simpa using hc)
    obtain ⟨⟨k, hk, hc₂⟩, happ₂⟩ := ih₂ trivial (n := m) hc₁
    exact ⟨⟨k, Nat.le_trans hm hk, hc₂⟩, fun _ vs => .otherwise (happ₁ (by simp) vs) (happ₂ (by simp) vs)⟩
  | grouping _ ih =>
    intro _ n hc
    obtain ⟨⟨m, hm, hc₁⟩, happ⟩ := ih trivial (n := n) (by simpa using hc)
    exact ⟨⟨m, hm, by simpa using hc₁⟩, fun _ vs => .grouping (happ (by simp) vs)⟩
  | primaryBlock _ ih =>
    intro _ n hc
    obtain ⟨hm, happ⟩ := ih trivial (n := n) hc
    exact ⟨hm, fun _ vs => .primaryBlock (happ (by simp) vs)⟩
  | block _ ih =>
    intro _ n hc
    obtain ⟨hm, happ⟩ := ih trivial (n := n) (by simpa using hc)
    exact ⟨hm, fun _ vs => .block (happ (by simp) vs)⟩
  | closed ts => exact fun _ n hc => ⟨⟨n, Nat.le_refl _, by simpa using hc⟩, fun _ vs => .closed _⟩
  | beforeFunction ts => exact fun _ n hc => ⟨⟨n + 1, Nat.le_succ _, hc⟩, fun _ vs => .beforeFunction _⟩
  | beforeEnd =>
    -- a block is still open
    intro _ n hc
    cases hc
  | statementSeparator _ ih =>
    intro _ n hc
    obtain ⟨hm, happ⟩ := ih trivial (n := n) (by simpa using hc)
    exact ⟨hm, fun _ vs => .statementSeparator (happ (by simp) vs)⟩
  | statement _ _ ih₁ ih₂ =>
    intro _ n hc
    obtain ⟨⟨m, hm, hc₁⟩, happ₁⟩ := ih₁ trivial (n := n + 1) hc
    obtain ⟨m, rfl⟩ : ∃ k, m = k + 1 := ⟨m - 1, by omega⟩
    obtain ⟨⟨k, hk, hc₂⟩, happ₂⟩ := ih₂ trivial (n := m) hc₁
    exact ⟨⟨k, by omega, hc₂⟩, fun _ vs => .statement (happ₁ (by simp) vs) (happ₂ (by simp) vs)⟩
  | function name _ _ _ ih₁ ih₂ ih₃ =>
    intro _ n hc
    obtain ⟨⟨m₁, hm₁, hc₁⟩, happ₁⟩ := ih₁ (Or.inl rfl) (n := n) (by simpa using hc)
    obtain ⟨⟨m₂, hm₂, hc₂⟩, happ₂⟩ := ih₂ trivial (n := m₁) (by simpa using hc₁)
    obtain ⟨⟨m₃, hm₃, hc₃⟩, happ₃⟩ := ih₃ trivial (n := m₂) hc₂
    exact ⟨⟨m₃, by omega, hc₃⟩, fun _ vs => .function name (happ₁ (by simp) vs) (happ₂ (by simp) vs) (happ₃ (by simp) vs)⟩
  | programEnd => exact fun _ n hc => ⟨⟨n, Nat.le_refl _, hc⟩, fun hne => absurd rfl hne⟩
  | programSeparator _ ih =>
    intro _ n hc
    obtain ⟨hm, _⟩ := ih trivial (n := n) (by simpa using hc)
    exact ⟨hm, fun hne => absurd rfl hne⟩
  | programFunction _ _ ih₁ ih₂ | programExpression _ _ ih₁ ih₂ =>
    intro _ n hc
    obtain ⟨⟨m, hm, hc₁⟩, _⟩ := ih₁ trivial (n := n) hc
    obtain ⟨⟨k, hk, hc₂⟩, _⟩ := ih₂ trivial (n := m) hc₁
    exact ⟨⟨k, Nat.le_trans hm hk, hc₂⟩, fun hne => absurd rfl hne⟩

/-! ## Programs with more behind them -/

/-- A program leaves no block open, so none is open where it begins. -/
theorem Derives.program_closed {ts : List Token} (h : Derives .program ts []) {n : Nat} (hc : closesBlocks n ts = true) : n = 0 := by
  obtain ⟨m, hm, hc'⟩ := (h.extends trivial hc).closes
  have hzero : m = 0 := by simpa using hc'
  omega

/-- What is behind a piece of a program is a program in which all blocks are closed. -/
theorem Derives.closes_behind {x : Symbol} {ts us : List Token} (h : Derives x ts us) (hx : x.Used) (hc : closesBlocks x.inside ts = true)
    (hrest : Derives .program us []) : closesBlocks 0 us = true := by
  obtain ⟨m, _, hm⟩ := (h.extends hx (n := 0) (by simpa using hc)).closes
  rwa [hrest.program_closed hm] at hm

/-- Separators alone are a program. -/
theorem separators_program {ts : List Token} (h : ∀ t ∈ ts, t = .statementEnd) :
    Derives .program ts [] ∧ closesBlocks 0 ts = true := by
  induction ts with
  | nil => exact ⟨.programEnd, rfl⟩
  | cons t ts ih =>
    obtain rfl := h t List.mem_cons_self
    obtain ⟨hd, hc⟩ := ih fun t ht => h t (List.mem_cons_of_mem _ ht)
    exact ⟨.programSeparator hd, hc⟩

/-- Two programs make up one. -/
theorem Derives.program_append {ts us : List Token} (h : Derives .program ts []) (hc : closesBlocks 0 ts = true)
    (h' : Derives .program us []) : Derives .program (ts ++ us) [] := by
  generalize hx : Symbol.program = x at h
  generalize hvs : ([] : List Token) = vs at h
  induction h with
  | programEnd => exact h'
  | programSeparator _ ih => exact .programSeparator (ih (by simpa using hc) hx hvs)
  | programFunction h₁ h₂ _ ih =>
    subst hvs
    exact .programFunction ((h₁.extends trivial (n := 0) hc).append (by simp) us) (ih (h₁.closes_behind trivial hc h₂) rfl rfl)
  | programExpression h₁ h₂ _ ih =>
    subst hvs
    exact .programExpression ((h₁.extends trivial (n := 0) hc).append (by simp) us) (ih (h₁.closes_behind trivial hc h₂) rfl rfl)
  | _ => cases hx

/-- The tokens are a program in which all blocks are closed, and `ys` behind it. -/
def Remainder (ys ts : List Token) : Prop := ∃ front, ts = front ++ ys ∧ Derives .program front [] ∧ closesBlocks 0 front = true

/-- A program goes on with what may follow an expression, up to a token that stops. -/
theorem Follow.remainder {ys : List Token} (hys : ∀ y ∈ ys, Stops y) : Follow (Remainder ys) := by
  apply Follow.of_sequence
  rintro token ts ⟨front, heq, hd, hc⟩
  cases hd with
  | programEnd => exact Or.inl (hys token (by rw [← List.nil_append ys, ← heq]; exact List.mem_cons_self))
  | programSeparator hd =>
    cases heq
    exact Or.inr (Or.inl ⟨rfl, _, rfl, hd, by simpa using hc⟩)
  | programFunction hf _ =>
    cases hf
    cases heq
    exact Or.inl (by simp [Stops])
  | programExpression he hrest =>
    refine Or.inr (Or.inr ⟨_, ?_, _, rfl, hrest, he.closes_behind trivial hc hrest⟩)
    rw [heq]
    exact (he.extends trivial (n := 0) hc).append (by simp) ys

/-- What is behind a piece is the end of the tokens. -/
theorem Derives.isSuffix {x : Symbol} {ts us : List Token} (h : Derives x ts us) : us <:+ ts := by
  have hcons : ∀ (token : Token) {ts us : List Token}, us <:+ ts → us <:+ token :: ts :=
    fun token _ _ h => h.trans (List.suffix_cons token _)
  have hbehind : ∀ {token : Token} {ts us : List Token}, token :: us <:+ ts → us <:+ ts :=
    fun h => (List.suffix_cons _ _).trans h
  induction h with
  | noSeparator | emptyList | noOperation | noOtherwise | beforeFunction | beforeEnd | programEnd => exact List.suffix_rfl
  | name | number | bareName | closed => exact List.suffix_cons _ _
  | lastItem _ ih | list _ ih | primaryBlock _ ih => exact ih
  | separator _ ih | ret _ ih | block _ ih | statementSeparator _ ih | programSeparator _ ih => exact hcons _ ih
  | expression _ _ ih₁ ih₂ | statement _ _ ih₁ ih₂ | programFunction _ _ ih₁ ih₂ | programExpression _ _ ih₁ ih₂ =>
    exact ih₂.trans ih₁
  | item _ _ ih₁ ih₂ => exact ih₂.trans (hbehind ih₁)
  | operation _ _ _ ih₁ ih₂ | otherwise _ _ ih₁ ih₂ => exact hcons _ (ih₂.trans ih₁)
  | grouping _ ih => exact hcons _ (hbehind ih)
  | call _ _ ih => exact hcons _ (hcons _ (hbehind ih))
  | memberCall _ _ _ ih => exact hcons _ (hcons _ (hcons _ (hcons _ (hbehind ih))))
  | declaration _ _ ih => exact hcons _ (hcons _ (hcons _ ih))
  | condition _ _ _ _ _ ih₁ ih₂ ih₃ ih₄ ih₅ =>
    exact hcons _ (hcons _ ((ih₅.trans (ih₄.trans (ih₃.trans ih₂))).trans (hbehind ih₁)))
  | function _ _ _ _ ih₁ ih₂ ih₃ => exact hcons _ (hcons _ (hcons _ ((ih₃.trans ih₂).trans (hbehind ih₁))))

/-- Tokens that end in a separator. -/
def EndsOpen (ts : List Token) : Prop := ts.getLast? = some .statementEnd

namespace EndsOpen

theorem not_nil : ¬EndsOpen [] := fun h => by cases h

/-- The end of tokens that end in a separator ends in it too. -/
theorem of_isSuffix {ts us : List Token} (h : EndsOpen ts) (hs : us <:+ ts) (hne : us ≠ []) : EndsOpen us := by
  obtain ⟨front, rfl⟩ := hs
  obtain ⟨us, last, rfl⟩ := List.eq_nil_or_concat us |>.resolve_left hne
  simpa [EndsOpen, ← List.append_assoc] using h

/-- Further tokens in front do not change how tokens end. -/
theorem cons {ts : List Token} (h : EndsOpen ts) (token : Token) : EndsOpen (token :: ts) := by
  cases ts with
  | nil => exact absurd h not_nil
  | cons t ts => rwa [EndsOpen, List.getLast?_cons_cons]

/-- Behind a token that is no separator, tokens that end in a separator still do. -/
theorem of_cons {token : Token} {ts : List Token} (h : EndsOpen (token :: ts)) (hne : token ≠ .statementEnd) : EndsOpen ts := by
  refine h.of_isSuffix (List.suffix_cons _ _) ?_
  rintro rfl
  cases h
  exact hne rfl

/-- A separator at the end is not what a piece ends in, if the piece ends in another token. -/
theorem not_closed {token : Token} {ts : List Token} (h : EndsOpen ts) (hs : [token] <:+ ts) (hne : token ≠ .statementEnd) : False :=
  not_nil ((h.of_isSuffix hs (by simp)).of_cons hne)

end EndsOpen

/-- The symbols for pieces that go on with what they stand for behind separators, if at all. -/
def Symbol.Inner : Symbol → Prop
  | .separators | .program => False
  | .items x | .list x => x = .name ∨ x = .expression
  | _ => True

/-- A piece that takes up separators up to the end of the tokens ends in a condition, so another branch may stand behind them. -/
theorem Derives.awaits {x : Symbol} {ts us branch : List Token} (h : Derives x ts us) (hbranch : Derives .otherwise branch []) :
    us = [] → x.Inner → ∀ {n}, closesBlocks (n + x.inside) ts = true → EndsOpen ts → Derives x (ts ++ branch) [] := by
  induction h with
  | noSeparator | separator | programEnd | programSeparator | programFunction | programExpression => exact fun _ hx => hx.elim
  | emptyList | noOperation | noOtherwise =>
    rintro rfl _ _ _ hopen
    exact hopen.not_nil.elim
  | beforeEnd =>
    intro _ _ _ _ hopen
    exact hopen.not_nil.elim
  | beforeFunction =>
    intro hnil
    cases hnil
  | name | number | bareName | closed =>
    rintro rfl _ _ _ hopen
    exact (hopen.not_closed List.suffix_rfl (by simp)).elim
  | grouping h _ =>
    rintro rfl _ _ _ hopen
    exact ((hopen.of_cons (by simp)).not_closed h.isSuffix (by simp)).elim
  | call _ h _ =>
    rintro rfl _ _ _ hopen
    exact (((hopen.of_cons (by simp)).of_cons (by simp)).not_closed h.isSuffix (by simp)).elim
  | memberCall _ _ h _ =>
    rintro rfl _ _ _ hopen
    have hopen := ((hopen.of_cons (by simp)).of_cons (by simp)).of_cons (by simp)
    exact ((hopen.of_cons (by simp)).not_closed h.isSuffix (by simp)).elim
  | lastItem _ ih =>
    rintro rfl hx n hc hopen
    exact .lastItem (ih rfl (by rcases hx with rfl | rfl <;> trivial) (n := n) (by rcases hx with rfl | rfl <;> exact hc) hopen)
  | @item x ts us vs h₁ h₂ ih₁ ih₂ =>
    rintro rfl hx n hc hopen
    have hfirst := h₁.extends (n := n) (by rcases hx with rfl | rfl <;> trivial) (by rcases hx with rfl | rfl <;> exact hc)
    obtain ⟨m, _, hc₁⟩ := hfirst.closes
    have hrest : EndsOpen us := (hopen.of_isSuffix h₁.isSuffix (by simp)).of_cons (by simp)
    exact .item (hfirst.append (by rcases hx with rfl | rfl <;> simp) branch) (ih₂ rfl hx (n := m) (by simpa using hc₁) hrest)
  | list _ ih =>
    rintro rfl hx n hc hopen
    exact .list (ih rfl hx (n := n) hc hopen)
  | @expression ts us vs h₁ h₂ ih₁ ih₂ =>
    rintro rfl _ n hc hopen
    by_cases hus : us = []
    · exact .expression (ih₁ hus trivial (n := n) hc hopen) (.noOperation _)
    · have hfirst := h₁.extends (n := n) trivial hc
      obtain ⟨m, _, hc₁⟩ := hfirst.closes
      exact .expression (hfirst.append (by simp) branch) (ih₂ rfl trivial (n := m) hc₁ (hopen.of_isSuffix h₁.isSuffix hus))
  | @operation c ts us vs hop h₁ h₂ ih₁ ih₂ =>
    rintro rfl _ n hc hopen
    have hopen := hopen.of_cons (by simp)
    rw [closesBlocks_operator hop] at hc
    by_cases hus : us = []
    · exact .operation hop (ih₁ hus trivial (n := n) hc hopen) (.noOperation _)
    · have hfirst := h₁.extends (n := n) trivial hc
      obtain ⟨m, _, hc₁⟩ := hfirst.closes
      exact .operation hop (hfirst.append (by simp) branch) (ih₂ rfl trivial (n := m) hc₁ (hopen.of_isSuffix h₁.isSuffix hus))
  | ret _ ih =>
    rintro rfl _ n hc hopen
    exact .ret (ih rfl trivial (n := n) (by simpa using hc) (hopen.of_cons (by simp)))
  | declaration name _ ih =>
    rintro rfl _ n hc hopen
    have hopen := (hopen.of_cons (by simp)).of_cons (by simp)
    exact .declaration name (ih rfl trivial (n := n) (by simpa using hc) (hopen.of_cons (by simp)))
  | @condition ts us vs ws xs ys h₁ h₂ h₃ h₄ h₅ _ _ ih₃ _ ih₅ =>
    rintro rfl _ n hc hopen
    have htest := h₁.extends (n := n) trivial (by simpa using hc)
    obtain ⟨m₁, _, hc₁⟩ := htest.closes
    have hgap := h₂.extends (n := m₁) trivial (by simpa using hc₁)
    obtain ⟨m₂, _, hc₂⟩ := hgap.closes
    have hyes := h₃.extends (n := m₂) trivial hc₂
    obtain ⟨m₃, _, hc₃⟩ := hyes.closes
    have hends := h₄.extends (n := m₃) trivial hc₃
    obtain ⟨m₄, _, hc₄⟩ := hends.closes
    have hopen := (hopen.of_cons (by simp)).of_cons (by simp)
    by_cases hxs : xs = []
    · subst hxs
      by_cases hws : ws = []
      · -- the branch ends in a condition itself, and takes the other branch
        subst hws
        obtain ⟨zs, _, _, _⟩ := h₃.expression_starts
        have hvs := (hopen.of_isSuffix h₁.isSuffix (by simp)).of_isSuffix (h₂.isSuffix.trans (List.suffix_cons _ _)) (by simp_all)
        exact .condition (htest.append (by simp) branch) (hgap.append (by simp) branch) (ih₃ rfl trivial (n := m₂) hc₂ hvs)
          (.noSeparator _) (.noOtherwise _)
      · exact .condition (htest.append (by simp) branch) (hgap.append (by simp) branch) (hyes.append (by simp) branch)
          (hends.append (by simp) branch) hbranch
    · have hxs' : EndsOpen xs := hopen.of_isSuffix ((h₄.isSuffix.trans (h₃.isSuffix.trans h₂.isSuffix)).trans
        ((List.suffix_cons _ _).trans h₁.isSuffix)) hxs
      exact .condition (htest.append (by simp) branch) (hgap.append (by simp) branch) (hyes.append (by simp) branch)
        (hends.append (by simp) branch) (ih₅ rfl trivial (n := m₄) hc₄ hxs')
  | @otherwise ts us vs h₁ h₂ _ ih₂ =>
    rintro rfl _ n hc hopen
    have hgap := h₁.extends (n := n) trivial (by simpa using hc)
    obtain ⟨m, _, hc₁⟩ := hgap.closes
    obtain ⟨zs, _, _, _⟩ := h₂.expression_starts
    have hus := (hopen.of_cons (by simp)).of_isSuffix h₁.isSuffix (by simp_all)
    exact .otherwise (hgap.append (by simp) branch) (ih₂ rfl trivial (n := m) hc₁ hus)
  | primaryBlock _ ih =>
    rintro rfl _ n hc hopen
    exact .primaryBlock (ih rfl trivial (n := n) hc hopen)
  | block _ ih =>
    rintro rfl _ n hc hopen
    exact .block (ih rfl trivial (n := n) (by simpa using hc) (hopen.of_cons (by simp)))
  | @statementSeparator ts us h ih =>
    rintro rfl _ n hc hopen
    by_cases hts : ts = []
    · -- a block is still open
      subst hts
      cases hc
    · exact .statementSeparator (ih rfl trivial (n := n) (by simpa using hc) (hopen.of_isSuffix (List.suffix_cons _ _) hts))
  | @statement ts us vs h₁ h₂ ih₁ ih₂ =>
    rintro rfl _ n hc hopen
    have hfirst := h₁.extends (n := n + 1) trivial hc
    obtain ⟨m, hm, hc₁⟩ := hfirst.closes
    obtain ⟨m, rfl⟩ : ∃ k, m = k + 1 := ⟨m - 1, by omega⟩
    by_cases hus : us = []
    · subst hus
      cases hc₁
    · exact .statement (hfirst.append (by simp) branch) (ih₂ rfl trivial (n := m) hc₁ (hopen.of_isSuffix h₁.isSuffix hus))
  | @function name ts us vs ws h₁ h₂ h₃ _ _ ih₃ =>
    rintro rfl _ n hc hopen
    have hparams := h₁.extends (n := n) (Or.inl rfl) (by simpa using hc)
    obtain ⟨m₁, _, hc₁⟩ := hparams.closes
    have hgap := h₂.extends (n := m₁) trivial (by simpa using hc₁)
    obtain ⟨m₂, _, hc₂⟩ := hgap.closes
    have hopen := ((hopen.of_cons (by simp)).of_cons (by simp)).of_cons (by simp)
    have hvs : EndsOpen vs := hopen.of_isSuffix (h₂.isSuffix.trans ((List.suffix_cons _ _).trans h₁.isSuffix)) (by cases h₃; simp)
    exact .function name (hparams.append (by simp) branch) (hgap.append (by simp) branch) (ih₃ rfl trivial (n := m₂) hc₂ hvs)

end Offside.Grammar

namespace Offside

open Production

/-- A construct of a program in which all blocks are closed is stored, whatever stands behind the program, and the rest is such a
program. -/
theorem State.complete_construct_remainder {ys : List Token} (hys : ∀ y ∈ ys, Grammar.Stops y) {s : State} {token : Token}
    {ts : List Token} (hs : Sees s (token :: ts ++ ys)) (hsep : token ≠ .statementEnd)
    (hd : Grammar.Derives .program (token :: ts) []) (hc : Grammar.closesBlocks 0 (token :: ts) = true) :
    ∃ t us, s.construct = .ok () t ∧ Sees t us ∧ Grammar.Remainder ys us := by
  cases hd with
  | programSeparator => exact absurd rfl hsep
  | programFunction hf hrest =>
    have hcur : s.current = .keyword .function := by
      cases hf
      exact hs.current_eq
    have hrest' : Grammar.Remainder ys _ := ⟨_, rfl, hrest, hf.closes_behind trivial hc hrest⟩
    obtain ⟨f, t, us, hft, ht, hk⟩ := Grammar.complete_function hs ((hf.extends trivial (n := 0) hc).append (by simp) ys) hrest'
    refine ⟨{ t with workspace := t.workspace.addFunction f }, us, ?_, ht.congr rfl rfl, hk⟩
    rw [construct, if_pos hcur, hft]
  | programExpression he hrest =>
    have hcur : s.current ≠ .keyword .function := by
      rintro heq
      obtain rfl : token = .keyword .function := hs.current_eq.symm.trans heq
      exact he.not_expression rfl
    obtain ⟨body, t, us, hbt, ht, hk⟩ := Grammar.complete_expression (.remainder hys) _ (Nat.le_refl _) hs
      ⟨_, (he.extends trivial (n := 0) hc).append (by simp) ys, _, rfl, hrest, he.closes_behind trivial hc hrest⟩
    rw [construct, if_neg hcur, Grammar.topLevel, bind_of_ok hbt]
    exact ⟨_, us, rfl, ht.congr rfl rfl, hk⟩

/-- A construct of a program that does not wait for another branch does not take up the separators at the end, and what is behind it
does not wait either. -/
theorem State.construct_unawaited {branch : List Token} (hbranch : Grammar.Derives .otherwise branch []) {s t : State} {ts : List Token}
    (hs : Sees s ts) (hc : Grammar.closesBlocks 0 ts = true) (hopen : Grammar.EndsOpen ts) (h : s.construct = .ok () t)
    (hno : ¬Grammar.Derives .program (ts ++ branch) []) :
    ∃ us, Sees t us ∧ us ≠ [] ∧ ¬Grammar.Derives .program (us ++ branch) [] := by
  obtain ⟨us, ht, hd⟩ := construct_derives hs h
  refine ⟨us, ht, ?_, fun hrest => hno ?_⟩
  · rintro rfl
    rcases hd with hd | hd
    · exact hno (.programFunction (hd.awaits hbranch rfl trivial (n := 0) hc hopen) .programEnd)
    · exact hno (.programExpression (hd.awaits hbranch rfl trivial (n := 0) hc hopen) .programEnd)
  · rcases hd with hd | hd
    · exact .programFunction ((hd.extends trivial (n := 0) hc).append (by simp) branch) hrest
    · exact .programExpression ((hd.extends trivial (n := 0) hc).append (by simp) branch) hrest

end Offside
