import Offside.Proofs.Grammar.Soundness

/-!
# Declarations with their values

The value of a declaration is not read as an expression of its own: the chain of operations on the declared variable is read as one
tree, and the variable is taken off that tree. All the same a declaration is `var`, a name, `=` and an expression, and it fails
wherever that expression fails. Where the value is a chain of assignments, it is folded to the left like any other.
-/

namespace Offside.Grammar

open Production

/-- `Introduces s x t`: behind the lookahead of `s` stand the name `x` and `=`, and behind these stands the lookahead of `t`. -/
inductive Introduces (s : State) (x : String) (t : State) : Prop where
  | intro {s₁ s₂ : State} : advance s = .ok () s₁ → s₁.current = .identifier x → advance s₁ = .ok () s₂ → s₂.current = .punct '=' →
      advance s₂ = .ok () t → Introduces s x t

/-- `Assigns s bs t`: from `s` to `t` stand the comparisons `bs` with `=` in front of each, and `=` does not follow. -/
inductive Assigns : State → List Expr → State → Prop where
  | stop {s : State} : s.current ≠ .punct '=' → Assigns s [] s
  | next {s s₁ s₂ t : State} {b : Expr} {bs : List Expr} : s.current = .punct '=' → advance s = .ok () s₁ →
      comparisons s₁ = .ok b s₂ → Assigns s₂ bs t → Assigns s (b :: bs) t

/-- Assignments folded to the left onto a first operand. -/
def assigned (first : Expr) (bs : List Expr) : Expr := bs.foldl (fun left right => .operation left '=' right) first

@[simp] theorem assigned_nil (first : Expr) : assigned first [] = first := rfl

@[simp] theorem assigned_cons (first b : Expr) (bs : List Expr) :
    assigned first (b :: bs) = assigned (.operation first '=' b) bs := rfl

/-! ## Chains of assignments -/

/-- Where no `=` stands, nothing is folded onto the operand. -/
theorem levelUpTo_stop (n : Nat) {left : Expr} {s : State} (h : s.current ≠ .punct '=') :
    levelUpTo ['='] comparisons n left s = .ok left s := by
  cases n with
  | zero => rfl
  | succ n =>
    unfold levelUpTo
    rw [current_bind]
    cases hc : s.current with
    | punct c =>
      have hne : c ∉ ['='] := by
        rw [List.mem_singleton]
        rintro rfl
        exact h hc
      dsimp only
      rw [if_neg hne]
      rfl
    | _ => rfl

/-- What is folded onto an operand are the comparisons behind it, with `=` in front of each. -/
theorem levelUpTo_assigns_iff (n : Nat) : ∀ {left e : Expr} {s t : State}, s.remaining ≤ n →
    (levelUpTo ['='] comparisons n left s = .ok e t ↔ ∃ bs, Assigns s bs t ∧ e = assigned left bs) := by
  -- without `=` both sides say that nothing is read
  have hstop : ∀ {left e : Expr} {s t : State} (n : Nat), s.current ≠ .punct '=' →
      (levelUpTo ['='] comparisons n left s = .ok e t ↔ ∃ bs, Assigns s bs t ∧ e = assigned left bs) := by
    intro left e s t n hcur
    rw [levelUpTo_stop n hcur]
    constructor
    · rintro ⟨⟩
      exact ⟨[], .stop hcur, rfl⟩
    · rintro ⟨bs, hbs, rfl⟩
      cases hbs with
      | stop => rfl
      | next h => exact absurd h hcur
  induction n with
  | zero =>
    intro left e s t hs
    exact hstop 0 (by simp [State.current_of_remaining_eq_zero (Nat.le_zero.mp hs)])
  | succ n ih =>
    intro left e s t hs
    by_cases hcur : s.current = .punct '='
    · have hstep : levelUpTo ['='] comparisons (n + 1) left s = (do
          advance
          levelUpTo ['='] comparisons n (.operation left '=' (← comparisons))) s := by
        rw [levelUpTo, current_bind, hcur]
        dsimp only
        rw [if_pos (by simp)]
      rw [hstep]
      have hless : ∀ {s₁ s₂ b}, advance s = .ok () s₁ → comparisons s₁ = .ok b s₂ → s₂.remaining ≤ n := by
        intro s₁ s₂ b ha hb
        have hlt := advance_remaining_lt ha (by simp [hcur])
        have hlt' := isLevel_comparisons.consumes consumes_primary s₁ b s₂ hb
        omega
      constructor
      · intro h
        obtain ⟨_, s₁, ha, h⟩ := bind_eq_ok.mp h
        obtain ⟨b, s₂, hb, h⟩ := bind_eq_ok.mp h
        obtain ⟨bs, hbs, rfl⟩ := (ih (hless ha hb)).mp h
        exact ⟨b :: bs, .next hcur ha hb hbs, rfl⟩
      · rintro ⟨bs, hbs, rfl⟩
        cases hbs with
        | stop h => exact absurd hcur h
        | @next _ s₁ s₂ _ b bs _ ha hb hbs =>
          rw [bind_of_ok ha, bind_of_ok hb]
          exact (ih (hless ha hb)).mpr ⟨bs, hbs, rfl⟩
    · exact hstop (n + 1) hcur

/-- An expression is a comparison with a chain of assignments behind it, folded to the left. -/
theorem expression_assigns_iff {e : Expr} {s t : State} :
    expression s = .ok e t ↔ ∃ b s₁ bs, comparisons s = .ok b s₁ ∧ Assigns s₁ bs t ∧ e = assigned b bs := by
  have heq : expression = assignments := (IsLevel.expressionWith consumes_primary).unique isLevel_assignments
  rw [heq, assignments, level, bind_eq_ok]
  constructor
  · rintro ⟨b, s₁, hb, h⟩
    obtain ⟨bs, hbs, rfl⟩ := (levelUpTo_assigns_iff _ (Nat.le_refl _)).mp h
    exact ⟨b, s₁, bs, hb, hbs, rfl⟩
  · rintro ⟨b, s₁, bs, hb, hbs, rfl⟩
    exact ⟨b, s₁, hb, (levelUpTo_assigns_iff _ (Nat.le_refl _)).mpr ⟨bs, hbs, rfl⟩⟩

/-! ## The declared name -/

/-- A name is read exactly if it is the lookahead and the token behind it can be read. -/
theorem identifier_eq_ok_iff {expected name : String} {s t : State} :
    identifier expected s = .ok name t ↔ s.current = .identifier name ∧ advance s = .ok () t := by
  unfold identifier
  rw [current_bind]
  cases hcur : s.current with
  | identifier x =>
    dsimp only
    rw [bind_eq_ok]
    constructor
    · rintro ⟨_, s₁, ha, ⟨⟩⟩
      exact ⟨rfl, ha⟩
    · rintro ⟨⟨⟩, ha⟩
      exact ⟨(), t, ha, rfl⟩
  | _ => simp

/-- A name stands for a variable only if it has no member and is not called. -/
theorem namedWith_var {operand : Production Expr} {first name : String} {m : Option String} {s t : State}
    (h : namedWith operand first m s = .ok (.var name) t) :
    m = none ∧ t = s ∧ name = s.workspace.externals.resolve first := by
  unfold namedWith at h
  rw [get_bind, current_bind] at h
  split at h
  · obtain ⟨_, s₁, _, h⟩ := bind_eq_ok.mp h
    obtain ⟨arguments, s₂, _, h⟩ := bind_eq_ok.mp h
    cases h
  · rename_i hbare
    cases m with
    | none =>
      cases h
      exact ⟨rfl, rfl, rfl⟩
    | some member => exact absurd rfl hbare

/-- A reference is a variable only if it is a name alone. -/
theorem referenceWith_var {operand : Production Expr} {name : String} {s t : State}
    (h : referenceWith operand s = .ok (.var name) t) :
    ∃ x, s.current = .identifier x ∧ advance s = .ok () t ∧ name = t.workspace.externals.resolve x := by
  obtain ⟨x, s₁, hname, h⟩ := bind_eq_ok.mp h
  obtain ⟨m, s₂, hmember, h⟩ := bind_eq_ok.mp h
  obtain ⟨rfl, rfl, rfl⟩ := namedWith_var h
  obtain ⟨hcur, ha⟩ := identifier_eq_ok_iff.mp hname
  unfold member? at hmember
  rw [current_bind] at hmember
  split at hmember
  · -- behind a point there is a member
    obtain ⟨_, s₃, _, hmember⟩ := bind_eq_ok.mp hmember
    rw [map_eq_bind] at hmember
    obtain ⟨_, s₄, _, hmember⟩ := bind_eq_ok.mp hmember
    cases hmember
  · cases hmember
    exact ⟨x, hcur, ha, rfl⟩

/-- In front of `=` a name is a variable. -/
theorem referenceWith_assignment (operand : Production Expr) {x : String} {s t : State} (hcur : s.current = .identifier x)
    (ha : advance s = .ok () t) (hnext : t.current = .punct '=') :
    referenceWith operand s = .ok (.var (t.workspace.externals.resolve x)) t := by
  have hname : identifier "an identifier" s = .ok x t := identifier_eq_ok_iff.mpr ⟨hcur, ha⟩
  have hmember : member? t = .ok none t := by
    unfold member?
    rw [current_bind, hnext]
    rfl
  unfold referenceWith
  rw [bind_of_ok hname, bind_of_ok hmember, namedWith, get_bind, current_bind, hnext]
  rfl

/-! ## The declared value -/

variable {operand : Production Expr}

/-- Behind `=` the chain on a declared variable is the expression that is its value. -/
theorem declared_operations (hc : Consumes operand) {name : String} {s t : State} (hcur : s.current = .punct '=')
    (ha : advance s = .ok () t) :
    (do declared name (← operationsWith operand 0 (.var name))) s = (do
      let value ← expressionWith operand
      note (.declaration name)
      return Expr.declaration name value) t := by
  have hop : Operator.ofToken? s.current = some ⟨'=', 2⟩ := by rw [hcur]; rfl
  have hchain := chain_next hc hop (Nat.zero_le _)
  rw [bind_of_ok ha] at hchain
  have hgroups := groups_operationsWith hc 0 (.var name) s
  unfold Groups at hgroups
  rw [hchain] at hgroups
  unfold expressionWith
  cases hright : operand t with
  | error d u =>
    rw [bind_of_error hright] at hgroups
    rw [bind_of_error hgroups, bind_of_error (bind_of_error hright)]
  | ok right u =>
    rw [bind_of_ok hright] at hgroups
    rw [bind_assoc, bind_of_ok hright]
    rcases (groups_operationsWith hc 0 right u).cases_result with ⟨more, v, value, hmore, hvalue, hgroup⟩ | ⟨d, v, hmore, hvalue⟩
    · rw [bind_of_ok hmore] at hgroups
      obtain ⟨e, he, hgrouped⟩ := hgroups
      have hall : ∀ x ∈ (⟨'=', 2⟩, right) :: more, x.1 ∈ Operator.all := by
        intro x hx
        rcases List.mem_cons.mp hx with rfl | hx
        · exact Operator.mem_all_of_ofToken? hop
        · exact chain_operators hc hmore x hx
      obtain ⟨value', hsplit, hgroup'⟩ := hgrouped.splitAssignment rfl hall rfl rfl
      obtain rfl := hgroup.unique hgroup'
      rw [bind_of_ok he, bind_of_ok hvalue, declared, hsplit]
    · rw [bind_of_error hmore] at hgroups
      rw [bind_of_error hgroups, bind_of_error hvalue]

/-- The chain on a declared variable begins with `=`. -/
theorem assignment_of_declared (hc : Consumes operand) {name : String} {e : Expr} {s t : State}
    (h : (do declared name (← operationsWith operand 0 (.var name))) s = .ok e t) :
    s.current = .punct '=' ∧ ∃ s₁, advance s = .ok () s₁ := by
  obtain ⟨chained, u, hchained, h⟩ := bind_eq_ok.mp h
  obtain ⟨x, value, hsplit, _, _⟩ := declared_ok h
  obtain ⟨rest, hchain, hgroup⟩ := chain_of_operationsWith hc hchained
  obtain ⟨op, right, more, rfl, hop⟩ := hgroup.splitAssignment_var rfl hsplit
  rcases chain_ok_cases hc hchain with ⟨hnil, _⟩ | ⟨_, _, _, s₁, _, hcons, htoken, _, ha, _⟩
  · cases hnil
  · cases hcons
    rw [← hop]
    exact ⟨Operator.eq_punct_of_ofToken? htoken, s₁, ha⟩

/-- Reading a token keeps the workspace. -/
theorem workspace_of_advance {s t : State} (h : advance s = .ok () t) : t.workspace = s.workspace :=
  Steps.workspace_eq (.read h (.refl t))

/-- A declaration is read exactly where a name, `=` and an expression stand behind `var`. -/
theorem declarationWith_ok_iff (hc : Consumes operand) {e : Expr} {s t : State} :
    declarationWith operand s = .ok e t ↔ ∃ x s' value u, Introduces s x s' ∧ expressionWith operand s' = .ok value u ∧
      e = .declaration (s.workspace.externals.resolve x) value ∧
      t = u.note (.declaration (s.workspace.externals.resolve x)) := by
  constructor
  · intro h
    obtain ⟨_, s₁, h₁, h⟩ := bind_eq_ok.mp h
    obtain ⟨target, s₂, h₂, h⟩ := bind_eq_ok.mp h
    split at h
    · rename_i name
      obtain ⟨x, hx, hread, rfl⟩ := referenceWith_var h₂
      obtain ⟨hcur, s', ha⟩ := assignment_of_declared hc h
      rw [declared_operations hc hcur ha] at h
      obtain ⟨value, u, hvalue, h⟩ := bind_eq_ok.mp h
      rw [workspace_of_advance hread, workspace_of_advance h₁] at h
      cases h
      exact ⟨x, s', value, u, .intro h₁ hx hread hcur ha, hvalue, rfl, rfl⟩
    · cases h
  · rintro ⟨x, s', value, u, hintro, hvalue, rfl, rfl⟩
    obtain ⟨h₁, hx, hread, hcur, ha⟩ := hintro
    unfold declarationWith
    rw [bind_of_ok h₁, bind_of_ok (referenceWith_assignment operand hx hread hcur)]
    dsimp only
    rw [declared_operations hc hcur ha, bind_of_ok hvalue, workspace_of_advance hread, workspace_of_advance h₁]
    rfl

/-- A declaration is `var`, a name, `=` and an expression. Its value is that expression, and the state behind it is the state behind
that expression. If the expression is a chain of assignments, the value is the chain folded to the left. If the name has anything but
`=` behind it, the declaration is rejected. -/
theorem primary_declaration (s : State) (hs : s.current = .keyword .var) :
    (∀ e t, primary s = .ok e t ↔ ∃ x s' value u, Introduces s x s' ∧ expression s' = .ok value u ∧
        e = .declaration (s.workspace.externals.resolve x) value ∧
        t = u.note (.declaration (s.workspace.externals.resolve x))) ∧
      (∀ e t, primary s = .ok e t ↔ ∃ x s' b s₁ bs u, Introduces s x s' ∧ comparisons s' = .ok b s₁ ∧ Assigns s₁ bs u ∧
        e = .declaration (s.workspace.externals.resolve x) (assigned b bs) ∧
        t = u.note (.declaration (s.workspace.externals.resolve x))) ∧
      ∀ x s₁ s₂, advance s = .ok () s₁ → s₁.current = .identifier x → advance s₁ = .ok () s₂ → s₂.current ≠ .punct '=' →
        ∃ d t, primary s = .error d t := by
  have hprimary : primary s = declarationWith primary s := by
    conv => lhs; rw [primary_eq, primaryWith, current_bind, hs]
  have hdeclares := fun e t => declarationWith_ok_iff consumes_primary (e := e) (s := s) (t := t)
  rw [hprimary]
  refine ⟨hdeclares, fun e t => ?_, fun x s₁ s₂ h₁ _ h₂ hne => ?_⟩
  · rw [hdeclares]
    constructor
    · rintro ⟨x, s', value, u, hintro, hvalue, rfl, rfl⟩
      obtain ⟨b, s₁, bs, hb, hbs, rfl⟩ := expression_assigns_iff.mp hvalue
      exact ⟨x, s', b, s₁, bs, u, hintro, hb, hbs, rfl, rfl⟩
    · rintro ⟨x, s', b, s₁, bs, u, hintro, hb, hbs, rfl, rfl⟩
      exact ⟨x, s', _, u, hintro, expression_assigns_iff.mpr ⟨b, s₁, bs, hb, hbs, rfl⟩, rfl, rfl⟩
  · cases hresult : declarationWith primary s with
    | error d t => exact ⟨d, t, rfl⟩
    | ok e t =>
      obtain ⟨_, _, _, _, hintro, _⟩ := (hdeclares e t).mp hresult
      obtain ⟨h₁', _, h₂', hcur, _⟩ := hintro
      rw [h₁] at h₁'
      cases h₁'
      rw [h₂] at h₂'
      cases h₂'
      exact absurd hcur hne

/-- A declaration whose value is a chain with a declaration and a tighter operator inside. -/
theorem primary_declaration_nested :
    let s : State := { State.start "a = b < 2 = if (c) var d = e = f else g" (.new .empty {}) with current := .keyword .var }
    s.current = .keyword .var ∧ ∃ x s' b s₁ bs u, Introduces s x s' ∧ comparisons s' = .ok b s₁ ∧ Assigns s₁ bs u ∧
      primary s = .ok (.declaration (s.workspace.externals.resolve x) (assigned b bs))
        (u.note (.declaration (s.workspace.externals.resolve x))) := by
  intro s
  have hs : s.current = .keyword .var := rfl
  have hread : (match primary s with | .ok _ _ => true | .error _ _ => false) = true := by decide +kernel
  cases hresult : primary s with
  | error d t =>
    rw [hresult] at hread
    cases hread
  | ok e t =>
    obtain ⟨x, s', b, s₁, bs, u, hintro, hb, hbs, rfl, rfl⟩ := ((primary_declaration s hs).2.1 e t).mp hresult
    exact ⟨hs, x, s', b, s₁, bs, u, hintro, hb, hbs, rfl⟩

end Offside.Grammar
