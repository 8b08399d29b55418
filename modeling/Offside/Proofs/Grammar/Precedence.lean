import Offside.Proofs.Grammar.Bound

/-!
# Operators by precedence

Reading operations with a least precedence is compared with two plainer readers. `chain` reads the same operators and operands and
keeps them as a list; `Grouped` says which tree stands for such a list, namely the one whose root is the last of the loosest
operators. `assignments` reads four levels of left-folded chains, one for each precedence, each over the level that binds tighter.
-/

namespace Offside

namespace Operator

/-- What is taken for an operator is one of them. -/
theorem mem_all_of_ofToken? {t : Token} {op : Operator} (h : ofToken? t = some op) : op ∈ all := by
  cases t with
  | punct c =>
    simp only [ofToken?] at h
    exact List.mem_of_find?_eq_some h
  | _ => cases h

/-- The token of an operator is its character. -/
theorem eq_punct_of_ofToken? {t : Token} {op : Operator} (h : ofToken? t = some op) : t = .punct op.symbol := by
  cases t with
  | punct c =>
    have hc := List.find?_some h
    rw [eq_of_beq hc]
  | _ => cases h

/-- No two operators share a character. -/
theorem ofToken?_punct_symbol : ∀ op ∈ all, ofToken? (.punct op.symbol) = some op := by
  decide

/-- The end of the input is no operator. -/
theorem ofToken?_ne_endOfInput {t : Token} {op : Operator} (h : ofToken? t = some op) : t ≠ .endOfInput := by
  rintro rfl
  cases h

end Operator

namespace Grammar

open Production

/-! ## Chains -/

/-- Reads operators that bind at least as tightly as `least`, with an operand behind each; at most `n` of them. -/
def chainUpTo (operand : Production Expr) (least : Nat) : Nat → Production (List (Operator × Expr))
  | 0 => return []
  | n + 1 => do
    match Operator.ofToken? (← current) with
    | none => return []
    | some op =>
      if op.precedence < least then
        return []
      else
        advance
        let right ← operand
        return (op, right) :: (← chainUpTo operand least n)

/-- Reads operators that bind at least as tightly as `least`, with an operand behind each. -/
def chain (operand : Production Expr) (least : Nat) : Production (List (Operator × Expr)) :=
  bounded (chainUpTo operand least)

/-- Reads the operator at the lookahead, its right operand and the tighter operators behind it. -/
def link (operand : Production Expr) (op : Operator) : Production (List (Operator × Expr)) := do
  advance
  let right ← operand
  return (op, right) :: (← chain operand (op.precedence + 1))

/-- The tree for an operand and a chain behind it: its root is the last one of the loosest operators, so that operators bind by
precedence and associate to the left. -/
inductive Grouped : Expr → List (Operator × Expr) → Expr → Prop where
  | operand (e : Expr) : Grouped e [] e
  | operation {first right l r : Expr} {before after : List (Operator × Expr)} {op : Operator} :
      Grouped first before l → Grouped right after r → (∀ x ∈ before, op.precedence ≤ x.1.precedence) →
      (∀ x ∈ after, op.precedence < x.1.precedence) →
      Grouped first (before ++ (op, right) :: after) (.operation l op.symbol r)

/-- There is one tree for a chain. -/
theorem Grouped.unique {first e : Expr} {rest : List (Operator × Expr)} (h : Grouped first rest e) :
    ∀ {e' : Expr}, Grouped first rest e' → e = e' := by
  induction h with
  | operand e =>
    intro e' h'
    generalize hnil : ([] : List (Operator × Expr)) = rest at h'
    cases h' with
    | operand => rfl
    | operation => simp at hnil
  | @operation first right l r before after op _ _ hb ha ihl ihr =>
    intro e' h'
    generalize hrest : before ++ (op, right) :: after = rest at h'
    cases h' with
    | operand => simp at hrest
    | @operation _ right' l' r' before' after' op' hl' hr' hb' ha' =>
      -- of two different roots the later one would bind both tighter and not tighter than the earlier one
      rcases List.append_eq_append_iff.mp hrest with ⟨more, hm, hm'⟩ | ⟨more, hm, hm'⟩
      · cases more with
        | nil =>
          simp only [List.append_nil, List.nil_append, List.cons.injEq, Prod.mk.injEq] at hm hm'
          obtain ⟨⟨rfl, rfl⟩, rfl⟩ := hm'
          subst hm
          rw [ihl hl', ihr hr']
        | cons x more =>
          simp only [List.cons_append, List.cons.injEq] at hm'
          obtain ⟨rfl, rfl⟩ := hm'
          have h1 := hb' (op, right) (by rw [hm]; simp)
          have h2 := ha (op', right') (by simp)
          simp only at h1 h2
          omega
      · cases more with
        | nil =>
          simp only [List.append_nil, List.nil_append, List.cons.injEq, Prod.mk.injEq] at hm hm'
          obtain ⟨⟨rfl, rfl⟩, rfl⟩ := hm'
          subst hm
          rw [ihl hl', ihr hr']
        | cons x more =>
          simp only [List.cons_append, List.cons.injEq] at hm'
          obtain ⟨rfl, rfl⟩ := hm'
          have h1 := hb (op', right') (by rw [hm]; simp)
          have h2 := ha' (op, right) (by simp)
          simp only at h1 h2
          omega

/-- A chain may be grouped in two parts if the second one begins with an operator that binds no tighter than the first part. -/
theorem Grouped.append {first l e : Expr} {xs ys : List (Operator × Expr)} (hx : Grouped first xs l) (hy : Grouped l ys e)
    (h : ∀ y ∈ ys.head?, ∀ x ∈ xs, y.1.precedence ≤ x.1.precedence) : Grouped first (xs ++ ys) e := by
  induction hy with
  | operand e => simpa using hx
  | @operation l right l' r before after op hl hr hb ha ihl _ =>
    have hbefore : Grouped first (xs ++ before) l' := by
      apply ihl hx
      intro y hy
      cases before with
      | nil => simp at hy
      | cons b before => exact h y (by simpa using hy)
    rw [← List.append_assoc]
    refine .operation hbefore hr ?_ ha
    intro x hmem
    rcases List.mem_append.mp hmem with hxs | hbefore
    · cases before with
      | nil => exact h (op, right) (by simp) x hxs
      | cons b before => exact Nat.le_trans (hb b (by simp)) (h b (by simp) x hxs)
    · exact hb x hbefore

/-- An operator, its right operand and the tighter operators behind it make up one operation. -/
theorem Grouped.of_tighter {left right r : Expr} {op : Operator} {after : List (Operator × Expr)} (hr : Grouped right after r)
    (ha : ∀ x ∈ after, op.precedence < x.1.precedence) :
    Grouped left ((op, right) :: after) (.operation left op.symbol r) := by
  have h := Grouped.operation (.operand left) hr (fun x hx => absurd hx (by simp)) ha
  simpa using h

/-! ## Reading chains -/

/-- The lookahead ends a chain, or it is an operator that goes on with it. -/
theorem operator_cases (least : Nat) (t : Token) :
    (∀ op, Operator.ofToken? t = some op → op.precedence < least) ∨
      ∃ op, Operator.ofToken? t = some op ∧ least ≤ op.precedence := by
  cases hop : Operator.ofToken? t with
  | none => exact Or.inl fun op h => by cases h
  | some op =>
    rcases Nat.lt_or_ge op.precedence least with hl | hl
    · exact Or.inl fun op' h => by cases h; exact hl
    · exact Or.inr ⟨op, rfl, hl⟩

variable {operand : Production Expr}

/-- A chain is read link by link. -/
theorem chain_eq (hc : Consumes operand) (least : Nat) :
    chain operand least = (do
      match Operator.ofToken? (← current) with
      | none => return []
      | some op =>
        if op.precedence < least then
          return []
        else
          advance
          let right ← operand
          return (op, right) :: (← chain operand least)) := by
  refine bounded_loop (u := fun n (_ : Unit) => chainUpTo operand least n) (F := fun p i => do
      match Operator.ofToken? (← current) with
      | none => return []
      | some op =>
        if op.precedence < least then
          return []
        else
          advance
          let right ← operand
          return (op, right) :: (← p i)) (fun n i => rfl) ?_ ?_ ()
  · intro s p i hs
    have hend := State.current_of_remaining_eq_zero hs
    simp [chainUpTo, hend, Operator.ofToken?]
  · intro s p q i h
    simp only [current_bind]
    cases hop : Operator.ofToken? s.current with
    | none => rfl
    | some op =>
      dsimp only
      split
      · rfl
      · apply bind_congr_ok
        intro _ t ht
        apply bind_congr_ok
        intro right u hu
        have hlt := advance_remaining_lt ht (Operator.ofToken?_ne_endOfInput hop)
        have hlt' := hc t right u hu
        simp only [bind, EStateM.bind, h u i (by omega)]

/-- Where no operator of the chain stands, the chain ends. -/
theorem chain_stop (hc : Consumes operand) {least : Nat} {s : State}
    (h : ∀ op, Operator.ofToken? s.current = some op → op.precedence < least) : chain operand least s = .ok [] s := by
  rw [chain_eq hc, current_bind]
  cases hop : Operator.ofToken? s.current with
  | none => rfl
  | some op => simp [h op hop]

/-- Where an operator of the chain stands, it is read with its operand and the chain goes on. -/
theorem chain_next (hc : Consumes operand) {least : Nat} {s : State} {op : Operator}
    (hop : Operator.ofToken? s.current = some op) (hl : least ≤ op.precedence) :
    chain operand least s = (do
      advance
      let right ← operand
      return (op, right) :: (← chain operand least)) s := by
  conv => lhs; rw [chain_eq hc, current_bind]
  simp [hop, Nat.not_lt.mpr hl]

/-- A run of `chain`: the operators with their operands that are read one after the other, up to the first token that is no
operator of the chain. -/
theorem chain_ok_cases (hc : Consumes operand) {least : Nat} {s t : State} {rest : List (Operator × Expr)}
    (h : chain operand least s = .ok rest t) :
    (rest = [] ∧ t = s ∧ ∀ op, Operator.ofToken? s.current = some op → op.precedence < least) ∨
      ∃ op right more s₁ s₂, rest = (op, right) :: more ∧ Operator.ofToken? s.current = some op ∧ least ≤ op.precedence ∧
        advance s = .ok () s₁ ∧ operand s₁ = .ok right s₂ ∧ chain operand least s₂ = .ok more t := by
  rcases operator_cases least s.current with hstop | ⟨op, hop, hl⟩
  · rw [chain_stop hc hstop] at h
    cases h
    exact Or.inl ⟨rfl, rfl, hstop⟩
  · rw [chain_next hc hop hl] at h
    obtain ⟨⟨⟩, s₁, h₁, h⟩ := bind_eq_ok.mp h
    obtain ⟨right, s₂, h₂, h⟩ := bind_eq_ok.mp h
    obtain ⟨more, s₃, h₃, h⟩ := bind_eq_ok.mp h
    cases h
    exact Or.inr ⟨op, right, more, s₁, s₂, rfl, hop, hl, h₁, h₂, h₃⟩

/-- A chain holds operators that bind tightly enough, and ends before a token that is no such operator. -/
theorem chain_ok (hc : Consumes operand) {least : Nat} (n : Nat) :
    ∀ {s t : State} {rest : List (Operator × Expr)}, s.remaining ≤ n → chain operand least s = .ok rest t →
      t.remaining ≤ s.remaining ∧ (∀ x ∈ rest, least ≤ x.1.precedence) ∧
        ∀ op, Operator.ofToken? t.current = some op → op.precedence < least := by
  induction n with
  | zero =>
    intro s t rest hs h
    have hend := State.current_of_remaining_eq_zero (Nat.le_zero.mp hs)
    rcases chain_ok_cases hc h with ⟨rfl, rfl, hstop⟩ | ⟨op, _, _, _, _, _, hop, _⟩
    · exact ⟨Nat.le_refl _, by simp, hstop⟩
    · exact absurd hend (Operator.ofToken?_ne_endOfInput hop)
  | succ n ih =>
    intro s t rest hs h
    rcases chain_ok_cases hc h with ⟨rfl, rfl, hstop⟩ | ⟨op, right, more, s₁, s₂, rfl, hop, hl, h₁, h₂, h₃⟩
    · exact ⟨Nat.le_refl _, by simp, hstop⟩
    · have hlt₁ := advance_remaining_lt h₁ (Operator.ofToken?_ne_endOfInput hop)
      have hlt₂ := hc s₁ right s₂ h₂
      obtain ⟨hle, hmore, hstop⟩ := ih (by omega) h₃
      refine ⟨by omega, ?_, hstop⟩
      intro x hx
      rcases List.mem_cons.mp hx with rfl | hx
      · exact hl
      · exact hmore x hx

/-- What a chain holds are operators of the language. -/
theorem chain_operators (hc : Consumes operand) {least : Nat} {rest : List (Operator × Expr)} :
    ∀ {s t : State}, chain operand least s = .ok rest t → ∀ x ∈ rest, x.1 ∈ Operator.all := by
  induction rest with
  | nil => intro s t _ x hx; cases hx
  | cons y more ih =>
    intro s t h x hx
    rcases chain_ok_cases hc h with ⟨hnil, _⟩ | ⟨op, right, _, _, _, hcons, hop, _, _, _, hmore⟩
    · cases hnil
    · cases hcons
      rcases List.mem_cons.mp hx with rfl | hx
      · exact Operator.mem_all_of_ofToken? hop
      · exact ih hmore x hx

/-- A chain may be read in two parts, the tighter operators first. -/
theorem chain_split (hc : Consumes operand) {least tight : Nat} (hle : least ≤ tight) (n : Nat) :
    ∀ s : State, s.remaining ≤ n → chain operand least s = (do
      let first ← chain operand tight
      return first ++ (← chain operand least)) s := by
  induction n with
  | zero =>
    intro s hs
    have hend := State.current_of_remaining_eq_zero (Nat.le_zero.mp hs)
    have hstop : ∀ k op, Operator.ofToken? s.current = some op → op.precedence < k :=
      fun k op hop => absurd hend (Operator.ofToken?_ne_endOfInput hop)
    rw [bind_of_ok (chain_stop hc (hstop tight)), bind_of_ok (chain_stop hc (hstop least)), chain_stop hc (hstop least)]
    rfl
  | succ n ih =>
    intro s hs
    rcases operator_cases tight s.current with hstop | ⟨op, hop, hl⟩
    · rw [bind_of_ok (chain_stop hc hstop)]
      simp
    · have hrest : ∀ (right : Expr) (s₂ : State), s₂.remaining ≤ n →
          (do return (op, right) :: (← chain operand least)) s₂ = (do
            let first ← chain operand tight
            return (op, right) :: (first ++ (← chain operand least))) s₂ := by
        intro right s₂ hs₂
        rw [bind_congr_left (ih s₂ hs₂)]
        simp only [bind_assoc, pure_bind]
      calc chain operand least s = (do
            advance
            let right ← operand
            return (op, right) :: (← chain operand least)) s := chain_next hc hop (Nat.le_trans hle hl)
        _ = (do
            advance
            let right ← operand
            let first ← chain operand tight
            return (op, right) :: (first ++ (← chain operand least))) s := by
          apply bind_congr_ok
          intro _ s₁ h₁
          apply bind_congr_ok
          intro right s₂ h₂
          have hlt₁ := advance_remaining_lt h₁ (Operator.ofToken?_ne_endOfInput hop)
          have hlt₂ := hc s₁ right s₂ h₂
          exact hrest right s₂ (by omega)
        _ = _ := by
          rw [bind_congr_left (chain_next hc hop hl)]
          simp only [bind_assoc, pure_bind, List.cons_append]

/-- Behind an operator a chain is read in two parts: the right operand with the tighter operators behind it, and the rest. -/
theorem chain_operation (hc : Consumes operand) {least : Nat} {s : State} {op : Operator}
    (hop : Operator.ofToken? s.current = some op) (hl : least ≤ op.precedence) :
    chain operand least s = (do
      let first ← link operand op
      return first ++ (← chain operand least)) s := by
  rw [chain_next hc hop hl]
  simp only [link, bind_assoc, pure_bind, List.cons_append]
  apply bind_congr_ok
  intro _ s₁ _
  apply bind_congr_ok
  intro right s₂ _
  rw [bind_congr_left (chain_split hc (Nat.le_succ_of_le hl) s₂.remaining s₂ (Nat.le_refl _))]
  simp only [bind_assoc, pure_bind]

/-! ## Grouping what a chain reads -/

/-- In a state, a production reads the same as the chain `c` and yields the tree of it over `left`; it fails as `c` fails. -/
def Groups (c : Production (List (Operator × Expr))) (left : Expr) (s : State) (p : Production Expr) : Prop :=
  match c s with
  | .ok rest t => ∃ e, p s = .ok e t ∧ Grouped left rest e
  | .error d t => p s = .error d t

namespace Groups

variable {c m : Production (List (Operator × Expr))} {left : Expr} {s : State} {p q : Production Expr}

/-- A production groups a chain if it reads as much and yields a tree of it. -/
theorem of_ok {rest : List (Operator × Expr)} {t : State} {e : Expr} (hc : c s = .ok rest t) (hp : p s = .ok e t)
    (h : Grouped left rest e) : Groups c left s p := by
  simp only [Groups, hc]
  exact ⟨e, hp, h⟩

/-- A production groups a chain that fails if it fails alike. -/
theorem of_error {t : State} {d : Diagnostic} (hc : c s = .error d t) (hp : p s = .error d t) : Groups c left s p := by
  simp only [Groups, hc, hp]

/-- What a production that groups a chain leads to. -/
theorem cases_result (h : Groups c left s p) :
    (∃ rest t e, c s = .ok rest t ∧ p s = .ok e t ∧ Grouped left rest e) ∨
      ∃ d t, c s = .error d t ∧ p s = .error d t := by
  unfold Groups at h
  cases hc : c s with
  | ok rest t =>
    rw [hc] at h
    obtain ⟨e, hp, he⟩ := h
    exact Or.inl ⟨rest, t, e, rfl, hp, he⟩
  | error d t =>
    rw [hc] at h
    exact Or.inr ⟨d, t, rfl, h⟩

/-- Productions that do the same group the same chains. -/
theorem congr (h : Groups c left s p) (hc : m s = c s) (hp : q s = p s) : Groups m left s q := by
  rcases h.cases_result with ⟨rest, t, e, h₁, h₂, he⟩ | ⟨d, t, h₁, h₂⟩
  · exact of_ok (hc.trans h₁) (hp.trans h₂) he
  · exact of_error (hc.trans h₁) (hp.trans h₂)

/-- Two productions that group the same chain do the same. -/
theorem unique (hp : Groups c left s p) (hq : Groups c left s q) : p s = q s := by
  rcases hp.cases_result with ⟨rest, t, e, h₁, h₂, he⟩ | ⟨d, t, h₁, h₂⟩ <;>
    rcases hq.cases_result with ⟨rest', t', e', h₁', h₂', he'⟩ | ⟨d', t', h₁', h₂'⟩
  · cases h₁.symm.trans h₁'
    rw [h₂, h₂', he.unique he']
  · cases h₁.symm.trans h₁'
  · cases h₁.symm.trans h₁'
  · cases h₁.symm.trans h₁'
    rw [h₂, h₂']

/-- Two parts of a chain are grouped one after the other, if the second begins with an operator that binds no tighter than the
first. -/
theorem bind {f : Expr → Production Expr} (hp : Groups c left s p)
    (hf : ∀ first l t, c s = .ok first t → p s = .ok l t → Groups m l t (f l) ∧
      ∀ y more u, m t = .ok (y :: more) u → ∀ x ∈ first, y.1.precedence ≤ x.1.precedence) :
    Groups (do
      let first ← c
      return first ++ (← m)) left s (p >>= f) := by
  rcases hp.cases_result with ⟨first, t, l, h₁, h₂, hl⟩ | ⟨d, t, h₁, h₂⟩
  · obtain ⟨hg, hhead⟩ := hf first l t h₁ h₂
    rcases hg.cases_result with ⟨more, u, e, h₃, h₄, he⟩ | ⟨d, u, h₃, h₄⟩
    · have hgroup : Grouped left (first ++ more) e := by
        apply hl.append he
        intro y hy x hx
        cases more with
        | nil => simp at hy
        | cons y' more =>
          simp only [List.head?_cons, Option.mem_some_iff] at hy
          subst hy
          exact hhead _ _ _ h₃ x hx
      refine of_ok ?_ ((bind_of_ok h₂).trans h₄) hgroup
      rw [bind_of_ok h₁, bind_of_ok h₃]
      rfl
    · refine of_error ?_ ((bind_of_ok h₂).trans h₄)
      rw [bind_of_ok h₁, bind_of_error h₃]
  · exact of_error (bind_of_error h₁) (bind_of_error h₂)

end Groups

/-- Where no operator binds tightly enough, the operand is left as it is. -/
theorem groups_stop (hc : Consumes operand) {least : Nat} {left : Expr} {s : State} {p : Production Expr}
    (h : ∀ op, Operator.ofToken? s.current = some op → op.precedence < least) (hp : p s = .ok left s) :
    Groups (chain operand least) left s p :=
  .of_ok (chain_stop hc h) hp (.operand left)

/-- A chain that is read behind a state where no operator is as tight as `tight` begins with an operator that is not. -/
theorem chain_head_lt (hc : Consumes operand) {least tight : Nat} {t u : State} {y : Operator × Expr}
    {more : List (Operator × Expr)} (h : chain operand least t = .ok (y :: more) u)
    (hstop : ∀ op, Operator.ofToken? t.current = some op → op.precedence < tight) : y.1.precedence < tight := by
  rcases chain_ok_cases hc h with ⟨hnil, _⟩ | ⟨op, _, _, _, _, hcons, hop, _⟩
  · cases hnil
  · cases hcons
    exact hstop op hop

/-- An operator, its right operand and the tighter operators behind it are grouped into one operation. -/
theorem groups_operator (hc : Consumes operand) {left : Expr} {s : State} {op : Operator} {inner : Expr → Production Expr}
    (hop : Operator.ofToken? s.current = some op)
    (hinner : ∀ right t, t.remaining < s.remaining → Groups (chain operand (op.precedence + 1)) right t (inner right)) :
    Groups (link operand op) left s (do
      advance
      let right ← inner (← operand)
      return .operation left op.symbol right) := by
  cases h₁ : advance s with
  | error d s₁ => exact .of_error (bind_of_error h₁) (bind_of_error h₁)
  | ok _ s₁ =>
    have hlt₁ := advance_remaining_lt h₁ (Operator.ofToken?_ne_endOfInput hop)
    cases h₂ : operand s₁ with
    | error d s₂ =>
      refine .of_error ?_ ((bind_of_ok h₁).trans (bind_of_error h₂))
      rw [link, bind_of_ok h₁, bind_of_error h₂]
    | ok right s₂ =>
      have hlt₂ := hc s₁ right s₂ h₂
      rcases (hinner right s₂ (by omega)).cases_result with ⟨after, s₃, r, h₃, h₄, hr⟩ | ⟨d, s₃, h₃, h₄⟩
      · have hgroup : Grouped left ((op, right) :: after) (.operation left op.symbol r) :=
          .of_tighter hr (chain_ok hc s₂.remaining (Nat.le_refl _) h₃).2.1
        refine .of_ok (t := s₃) ?_ ?_ hgroup
        · rw [link, bind_of_ok h₁, bind_of_ok h₂, bind_of_ok h₃]
          rfl
        · rw [bind_of_ok h₁, bind_of_ok h₂, bind_of_ok h₄]
          rfl
      · refine .of_error ?_ ((bind_of_ok h₁).trans ((bind_of_ok h₂).trans (bind_of_error h₄)))
        rw [link, bind_of_ok h₁, bind_of_ok h₂, bind_of_error h₃]

/-- One operation: the operator, its right operand with the tighter operators behind it, and the rest of the chain. -/
theorem groups_operation (hc : Consumes operand) {least : Nat} {left : Expr} {s : State} {op : Operator}
    {inner outer : Expr → Production Expr} (hop : Operator.ofToken? s.current = some op) (hl : least ≤ op.precedence)
    (hinner : ∀ right t, t.remaining < s.remaining → Groups (chain operand (op.precedence + 1)) right t (inner right))
    (houter : ∀ left t, t.remaining < s.remaining →
      (∀ next, Operator.ofToken? t.current = some next → next.precedence ≤ op.precedence) →
      Groups (chain operand least) left t (outer left)) :
    Groups (chain operand least) left s (do
      advance
      let right ← inner (← operand)
      outer (.operation left op.symbol right)) := by
  have hfirst : Groups (link operand op) left s (do
      advance
      let right ← inner (← operand)
      return .operation left op.symbol right) := groups_operator hc hop hinner
  have h := hfirst.bind (m := chain operand least) (f := outer) ?_
  · apply h.congr (chain_operation hc hop hl)
    simp only [bind_assoc, pure_bind]
  · intro first l t hfirst _
    obtain ⟨_, s₁, h₁, hfirst⟩ := bind_eq_ok.mp hfirst
    obtain ⟨right, s₂, h₂, hfirst⟩ := bind_eq_ok.mp hfirst
    obtain ⟨after, s₃, h₃, hfirst⟩ := bind_eq_ok.mp hfirst
    cases hfirst
    have hlt₁ := advance_remaining_lt h₁ (Operator.ofToken?_ne_endOfInput hop)
    have hlt₂ := hc s₁ right s₂ h₂
    obtain ⟨hle, hafter, hstop⟩ := chain_ok hc s₂.remaining (Nat.le_refl _) h₃
    refine ⟨houter l t (by omega) fun next hnext => Nat.le_of_lt_succ (hstop next hnext), ?_⟩
    intro y more u hy x hx
    have hlt := chain_head_lt hc hy hstop
    rcases List.mem_cons.mp hx with rfl | hx
    · exact Nat.le_of_lt_succ hlt
    · exact Nat.le_of_lt (Nat.lt_of_lt_of_le hlt (hafter x hx))

/-- Reading operations groups the chain of their operators. -/
theorem groups_operationsUpTo (hc : Consumes operand) (n : Nat) :
    ∀ (least : Nat) (left : Expr) (s : State), s.remaining ≤ n →
      Groups (chain operand least) left s (operationsUpTo operand n least left) := by
  induction n with
  | zero =>
    intro least left s hs
    have hend := State.current_of_remaining_eq_zero (Nat.le_zero.mp hs)
    exact groups_stop hc (fun op hop => absurd hend (Operator.ofToken?_ne_endOfInput hop)) rfl
  | succ n ih =>
    intro least left s hs
    rcases operator_cases least s.current with hstop | ⟨op, hop, hl⟩
    · apply groups_stop hc hstop
      rw [operationsUpTo, current_bind]
      cases hop : Operator.ofToken? s.current with
      | none => rfl
      | some op => simp [hstop op hop]
    · -- the right operand is extended where the next operator binds tighter; elsewhere there is nothing to extend it with
      let inner : Expr → Production Expr := fun right => do
        match Operator.ofToken? (← current) with
        | none => pure right
        | some next =>
          if op.precedence < next.precedence then operationsUpTo operand n (op.precedence + 1) right else pure right
      have hinner : ∀ right t, t.remaining < s.remaining → Groups (chain operand (op.precedence + 1)) right t (inner right) := by
        intro right t ht
        rcases operator_cases (op.precedence + 1) t.current with hstop | ⟨next, hnext, htight⟩
        · apply groups_stop hc hstop
          simp only [inner, current_bind]
          cases hnext : Operator.ofToken? t.current with
          | none => rfl
          | some next => simp [Nat.not_lt.mpr (Nat.le_of_lt_succ (hstop next hnext))]
        · apply (ih (op.precedence + 1) right t (by omega)).congr rfl
          simp only [inner, current_bind, hnext]
          simp [Nat.lt_of_succ_le htight]
      have houter : ∀ left t, t.remaining < s.remaining →
          (∀ next, Operator.ofToken? t.current = some next → next.precedence ≤ op.precedence) →
          Groups (chain operand least) left t (operationsUpTo operand n least left) :=
        fun left t ht _ => ih least left t (by omega)
      apply (groups_operation hc hop hl hinner houter).congr rfl
      rw [operationsUpTo, current_bind]
      simp only [hop, Nat.not_lt.mpr hl, if_false]
      apply bind_congr_ok
      intro _ s₁ _
      apply bind_congr_ok
      intro right s₂ _
      simp only [inner, bind_assoc, current_bind]
      cases Operator.ofToken? s₂.current with
      | none => rfl
      | some next =>
        dsimp only
        split <;> rfl

/-- Reading operations groups the chain of operators that bind tightly enough. -/
theorem groups_operationsWith (hc : Consumes operand) (least : Nat) (left : Expr) (s : State) :
    Groups (chain operand least) left s (operationsWith operand least left) :=
  groups_operationsUpTo hc s.remaining least left s (Nat.le_refl _)

/-- Operations succeed only where the chain of their operators does, and yield the tree of it. -/
theorem chain_of_operationsWith (hc : Consumes operand) {least : Nat} {left e : Expr} {s t : State}
    (h : operationsWith operand least left s = .ok e t) :
    ∃ rest, chain operand least s = .ok rest t ∧ Grouped left rest e := by
  rcases (groups_operationsWith hc least left s).cases_result with ⟨rest, t', e', hchain, hp, hg⟩ | ⟨d, t', _, hp⟩
  · rw [hp] at h
    cases h
    exact ⟨rest, hchain, hg⟩
  · rw [hp] at h
    cases h

/-! ## Levels -/

/-- Folds operators with the given characters, and an operand behind each, onto `left`; at most `n` of them. -/
def levelUpTo (symbols : List Char) (operand : Production Expr) : Nat → Expr → Production Expr
  | 0, left => return left
  | n + 1, left => do
    match ← current with
    | .punct c =>
      if c ∈ symbols then
        advance
        let right ← operand
        levelUpTo symbols operand n (.operation left c right)
      else
        return left
    | _ => return left

/-- Operands with operators of the given characters between them, folded to the left. -/
def level (symbols : List Char) (operand : Production Expr) : Production Expr := do
  let left ← operand
  bounded fun n => levelUpTo symbols operand n left

/-- Operands with `*` and `/` between them. -/
def products : Production Expr := level ['*', '/'] primary

/-- Products with `+` and `-` between them. -/
def sums : Production Expr := level ['+', '-'] products

/-- Sums with `<` and `>` between them. -/
def comparisons : Production Expr := level ['<', '>'] sums

/-- Comparisons with `=` between them. -/
def assignments : Production Expr := level ['='] comparisons

/-- Operators of one precedence, over operands that hold the tighter ones, are folded to the left as the chain is grouped. -/
theorem groups_levelUpTo (hc : Consumes operand) {symbols : List Char} {precedence : Nat}
    (hsymbols : ∀ c, c ∈ symbols ↔ ∃ op ∈ Operator.all, op.symbol = c ∧ op.precedence = precedence)
    {tighter : Expr → Production Expr} (ht : ∀ left s, Groups (chain operand (precedence + 1)) left s (tighter left)) (n : Nat) :
    ∀ (left : Expr) (s : State), s.remaining ≤ n →
      (∀ op, Operator.ofToken? s.current = some op → op.precedence ≤ precedence) →
      Groups (chain operand precedence) left s (levelUpTo symbols (do tighter (← operand)) n left) := by
  induction n with
  | zero =>
    intro left s hs _
    have hend := State.current_of_remaining_eq_zero (Nat.le_zero.mp hs)
    exact groups_stop hc (fun op hop => absurd hend (Operator.ofToken?_ne_endOfInput hop)) rfl
  | succ n ih =>
    intro left s hs hle
    rcases operator_cases precedence s.current with hstop | ⟨op, hop, hl⟩
    · apply groups_stop hc hstop
      rw [levelUpTo, current_bind]
      cases hcur : s.current with
      | punct c =>
        have hmem : c ∉ symbols := by
          intro hmem
          obtain ⟨op, hall, rfl, hp⟩ := (hsymbols c).mp hmem
          have hlt := hstop op (by rw [hcur]; exact Operator.ofToken?_punct_symbol op hall)
          omega
        simp [hmem]
      | _ => rfl
    · have hp : op.precedence = precedence := Nat.le_antisymm (hle op hop) hl
      have hcur := Operator.eq_punct_of_ofToken? hop
      have hmem : op.symbol ∈ symbols := (hsymbols _).mpr ⟨op, Operator.mem_all_of_ofToken? hop, rfl, hp⟩
      have houter : ∀ left t, t.remaining < s.remaining →
          (∀ next, Operator.ofToken? t.current = some next → next.precedence ≤ op.precedence) →
          Groups (chain operand precedence) left t (levelUpTo symbols (do tighter (← operand)) n left) :=
        fun left t ht hnext => ih left t (by omega) (hp ▸ hnext)
      apply (groups_operation hc hop hl (fun right t _ => hp ▸ ht right t) houter).congr rfl
      rw [levelUpTo, current_bind, hcur]
      simp only [if_pos hmem, bind_assoc]

/-- A level of left-folded operators over a level that groups the tighter ones groups them all. -/
theorem groups_level (hc : Consumes operand) {symbols : List Char} {precedence : Nat}
    (hsymbols : ∀ c, c ∈ symbols ↔ ∃ op ∈ Operator.all, op.symbol = c ∧ op.precedence = precedence)
    {tighter : Expr → Production Expr} (ht : ∀ left s, Groups (chain operand (precedence + 1)) left s (tighter left))
    (left : Expr) (s : State) :
    Groups (chain operand precedence) left s (do
      let left ← tighter left
      bounded fun n => levelUpTo symbols (do tighter (← operand)) n left) := by
  have hsplit := chain_split hc (Nat.le_succ precedence) s.remaining s (Nat.le_refl _)
  refine ((ht left s).bind ?_).congr hsplit rfl
  intro first l t hfirst _
  obtain ⟨_, htight, hstop⟩ := chain_ok hc s.remaining (Nat.le_refl _) hfirst
  refine ⟨groups_levelUpTo hc hsymbols ht t.remaining l t (Nat.le_refl _) fun op hop => Nat.le_of_lt_succ (hstop op hop), ?_⟩
  intro y more u hy x hx
  exact Nat.le_of_lt (Nat.lt_of_lt_of_le (chain_head_lt hc hy hstop) (htight x hx))

/-- A chain depends only on the operators that its bound lets in. -/
theorem chain_congr {a b : Nat} (h : ∀ op ∈ Operator.all, op.precedence < a ↔ op.precedence < b) :
    chain operand a = chain operand b := by
  have hupTo : ∀ n, chainUpTo operand a n = chainUpTo operand b n := by
    intro n
    induction n with
    | zero => rfl
    | succ n ih =>
      funext s
      simp only [chainUpTo, current_bind, ih]
      cases hop : Operator.ofToken? s.current with
      | none => rfl
      | some op => simp only [h op (Operator.mem_all_of_ofToken? hop)]
  rw [chain, chain, funext hupTo]

/-- A production that reads an operand and groups the chain behind it. -/
def IsLevel (operand : Production Expr) (least : Nat) (p : Production Expr) : Prop :=
  ∃ tail : Expr → Production Expr, p = (do tail (← operand)) ∧ ∀ left s, Groups (chain operand least) left s (tail left)

namespace IsLevel

/-- There is one production at each level. -/
theorem unique {least : Nat} {p q : Production Expr} (hp : IsLevel operand least p) (hq : IsLevel operand least q) : p = q := by
  obtain ⟨tail, rfl, ht⟩ := hp
  obtain ⟨tail', rfl, ht'⟩ := hq
  have htail : tail = tail' := by
    funext left s
    exact (ht left s).unique (ht' left s)
  rw [htail]

/-- A level depends on which operators bind more loosely, not on the number that says so. -/
theorem congr {a b : Nat} {p : Production Expr} (hp : IsLevel operand a p)
    (h : ∀ op ∈ Operator.all, op.precedence < a ↔ op.precedence < b) : IsLevel operand b p := by
  obtain ⟨tail, hp, ht⟩ := hp
  refine ⟨tail, hp, ?_⟩
  rw [← chain_congr h]
  exact ht

/-- The operands themselves are the level above all operators. -/
theorem of_operand (hc : Consumes operand) : IsLevel operand 41 operand := by
  refine ⟨pure, (bind_pure operand).symm, ?_⟩
  intro left s
  apply groups_stop hc _ rfl
  intro op hop
  have hall : ∀ op ∈ Operator.all, op.precedence < 41 := by decide
  exact hall op (Operator.mem_all_of_ofToken? hop)

/-- Left-folded operators over the level that binds tighter are the level of their precedence. -/
theorem level (hc : Consumes operand) {symbols : List Char} {precedence : Nat} {p : Production Expr}
    (hp : IsLevel operand (precedence + 1) p)
    (hsymbols : symbols = (Operator.all.filter fun op => op.precedence = precedence).map (·.symbol)) :
    IsLevel operand precedence (Grammar.level symbols p) := by
  obtain ⟨tighter, rfl, ht⟩ := hp
  have hmem : ∀ c, c ∈ symbols ↔ ∃ op ∈ Operator.all, op.symbol = c ∧ op.precedence = precedence := by
    intro c
    simp only [hsymbols, List.mem_map, List.mem_filter, decide_eq_true_eq]
    constructor
    · rintro ⟨op, ⟨hall, hp⟩, hc⟩
      exact ⟨op, hall, hc, hp⟩
    · rintro ⟨op, hall, hc, hp⟩
      exact ⟨op, ⟨hall, hp⟩, hc⟩
  refine ⟨_, ?_, groups_level hc hmem ht⟩
  simp only [Grammar.level, bind_assoc]

/-- An expression is the loosest level. -/
theorem expressionWith (hc : Consumes operand) : IsLevel operand 0 (Grammar.expressionWith operand) :=
  ⟨operationsWith operand 0, rfl, groups_operationsWith hc 0⟩

/-- A level uses up the tokens of its first operand at least. -/
theorem consumes (hc : Consumes operand) {least : Nat} {p : Production Expr} (hp : IsLevel operand least p) : Consumes p := by
  obtain ⟨tail, rfl, htail⟩ := hp
  intro s e t h
  obtain ⟨left, s₁, h₁, h⟩ := bind_eq_ok.mp h
  have hlt := hc s left s₁ h₁
  rcases (htail left s₁).cases_result with ⟨rest, t', e', hchain, hp, _⟩ | ⟨d, t', _, hp⟩
  · rw [hp] at h
    cases h
    have hle := (chain_ok hc s₁.remaining (Nat.le_refl _) hchain).1
    omega
  · rw [hp] at h
    cases h

end IsLevel

/-- An expression reads a token if its operands do. -/
theorem consumes_expressionWith (hc : Consumes operand) : Consumes (expressionWith operand) :=
  (IsLevel.expressionWith hc).consumes hc

/-- Comparisons are the level of all operators that bind more tightly than an assignment. -/
theorem isLevel_comparisons : IsLevel primary 10 comparisons := by
  have hproducts : IsLevel primary 40 products := (IsLevel.of_operand consumes_primary).level consumes_primary rfl
  have hsums : IsLevel primary 20 sums := (hproducts.congr (by decide)).level consumes_primary rfl
  exact (hsums.congr (by decide)).level consumes_primary rfl

/-- The four levels of left-folded chains make up the level of all operators. -/
theorem isLevel_assignments : IsLevel primary 0 assignments := by
  have hassignments : IsLevel primary 2 assignments := (isLevel_comparisons.congr (by decide)).level consumes_primary rfl
  exact hassignments.congr (by decide)

/-- Precedence climbing is the layered grammar. An expression is read as four levels of left-folded chains, with the same value or
failure and the same state behind it. In general, reading operations of a least precedence over an operand `left` reads as `chain`
does: the operators that bind tightly enough with their operands, up to the first token that is no such operator; what it yields is
the tree that `Grouped` gives for them over `left`. -/
theorem expression_eq_assignments :
    expression = assignments ∧ ∀ (least : Nat) (left : Expr) (s : State),
      match chain primary least s with
      | .ok rest t => (∃ e, operations least left s = .ok e t ∧ Grouped left rest e) ∧ (∀ x ∈ rest, least ≤ x.1.precedence) ∧
          ∀ op, Operator.ofToken? t.current = some op → op.precedence < least
      | .error d t => operations least left s = .error d t := by
  refine ⟨(IsLevel.expressionWith consumes_primary).unique isLevel_assignments, ?_⟩
  intro least left s
  rcases (groups_operationsWith consumes_primary least left s).cases_result with ⟨rest, t, e, h₁, h₂, he⟩ | ⟨d, t, h₁, h₂⟩
  · obtain ⟨_, htight, hstop⟩ := chain_ok consumes_primary s.remaining (Nat.le_refl _) h₁
    simp only [h₁]
    exact ⟨⟨e, h₂, he⟩, htight, hstop⟩
  · simp only [h₁]
    exact h₂

end Grammar

end Offside
