import Offside.Proofs.Grammar.Initializer
import Offside.Proofs.Grammar.Reading

/-!
# The names that are used, and the names that are stored

A name is used as a variable or as a callee. Which uses there are can be told from the tokens alone (`Token.uses`): a name with a
member behind a point is one use, and a name is called where a parenthesis opens behind it. What an expression stores are the names
of its variables and callees (`Expr.names`). Every production stores, in the order in which they are written, the names that the
table of external names gives for the uses in what it reads (`Faithful`).
-/

namespace Offside

open Production Grammar

/-! ## Uses -/

/-- A use of a name, as it is written. -/
structure Use where
  name : String
  /-- The member behind a point. -/
  member : Option String
  called : Bool
deriving DecidableEq

/-- The whole name of a use. -/
def Use.written (u : Use) : String := u.member.elim u.name fun member => u.name ++ "." ++ member

/-- What is stored for a use. -/
def Use.stored (table : Externals) (u : Use) : String × Bool := (table.resolve u.written, u.called)

/-- The uses of names among the tokens of expressions. -/
def Token.uses : List Token → List Use
  | [] => []
  | .identifier name :: .punct '.' :: .identifier member :: ts => ⟨name, some member, true⟩ :: uses ts
  | .identifier name :: .punct '(' :: ts => ⟨name, none, true⟩ :: uses ts
  | .identifier name :: ts => ⟨name, none, false⟩ :: uses ts
  | _ :: ts => uses ts

namespace Expr

mutual

/-- The names of the variables and callees in an expression, from left to right, and which of them are callees. -/
def names : Expr → List (String × Bool)
  | number _ => []
  | var name => [(name, false)]
  | binary left _ right _ => left.names ++ right.names
  | ret value => value.names
  | call callee arguments => (callee, true) :: namesAll arguments
  | cond test yes none => test.names ++ yes.names
  | cond test yes (some no) => test.names ++ yes.names ++ no.names
  | block _ statements => namesAll statements

/-- The names in several expressions. -/
def namesAll : List Expr → List (String × Bool)
  | [] => []
  | e :: es => e.names ++ namesAll es

end

/-- The names in several expressions are those of each, one after the other. -/
@[simp] theorem namesAll_eq_flatMap (es : List Expr) : namesAll es = es.flatMap names := by
  induction es with
  | nil => rfl
  | cons e es ih => rw [namesAll, ih, List.flatMap_cons]

/-- The names of the other branch come last, if there is one. -/
theorem names_cond (test yes : Expr) (no : Option Expr) :
    (cond test yes no).names = test.names ++ yes.names ++ no.elim [] names := by
  cases no <;> simp [names]

end Expr

/-- A tree of operations holds the names of its operands, in their order. -/
theorem Grammar.Grouped.names_eq {first e : Expr} {rest : List (Operator × Expr)} (h : Grouped first rest e) :
    e.names = first.names ++ rest.flatMap fun x => x.2.names := by
  induction h with
  | operand => simp
  | operation _ _ _ _ ihl ihr => simp [Expr.operation, Expr.names, ihl, ihr]

/-! ## Pieces and the uses in them -/

/-- The tokens `ts` are a piece with `us` behind it, and `found` are the uses in the piece. They are the same in front of whatever
begins like `us`, and in front of whatever ends an operand. -/
def Finds (ts us : List Token) (found : List Use) : Prop :=
  ∃ piece, ts = piece ++ us ∧ ∀ vs, vs.head? = us.head? ∨ endsOperand vs = true →
    Token.uses (piece ++ vs) = found ++ Token.uses vs

namespace Finds

variable {ts us vs : List Token} {found more : List Use}

/-- Nothing read, nothing found. -/
theorem refl (ts : List Token) : Finds ts ts [] := ⟨[], rfl, fun _ _ => rfl⟩

/-- Pieces are read one after the other, and what is found in them is put together. -/
theorem trans (h : Finds ts us found) (h' : Finds us vs more) : Finds ts vs (found ++ more) := by
  obtain ⟨piece, rfl, hpiece⟩ := h
  obtain ⟨piece', rfl, hpiece'⟩ := h'
  refine ⟨piece ++ piece', by rw [List.append_assoc], fun ws hws => ?_⟩
  have hhead : (piece' ++ ws).head? = (piece' ++ vs).head? ∨ endsOperand (piece' ++ ws) = true := by
    cases piece' with
    | nil => exact hws
    | cons token piece' => exact Or.inl rfl
  rw [List.append_assoc, hpiece _ hhead, hpiece' ws hws, List.append_assoc]

/-- A token that is no name is no use. -/
theorem token {t : Token} (ht : ∀ name, t ≠ .identifier name) (ts : List Token) : Finds (t :: ts) ts [] := by
  refine ⟨[t], rfl, fun vs _ => ?_⟩
  cases t with
  | identifier name => exact absurd rfl (ht name)
  | _ => simp [Token.uses]

/-- A name that nothing follows which belongs to it. -/
theorem name (name : String) (hts : endsOperand ts = true) : Finds (.identifier name :: ts) ts [⟨name, none, false⟩] := by
  refine ⟨[.identifier name], rfl, fun vs hvs => ?_⟩
  have hends : endsOperand vs = true := by
    rcases hvs with hhead | hends
    · rwa [endsOperand, hhead]
    · exact hends
  rw [List.singleton_append, Token.uses]
  · rfl
  · rintro member us rfl
    cases hends
  · rintro us rfl
    cases hends

/-- A name is called where a parenthesis opens behind it. -/
theorem callee (name : String) (ts : List Token) : Finds (.identifier name :: .punct '(' :: ts) ts [⟨name, none, true⟩] :=
  ⟨[.identifier name, .punct '('], rfl, fun vs _ => by simp [Token.uses]⟩

/-- A name with a member is one use, and a call whatever follows. -/
theorem member (name member : String) (ts : List Token) :
    Finds (.identifier name :: .punct '.' :: .identifier member :: ts) ts [⟨name, some member, true⟩] :=
  ⟨[.identifier name, .punct '.', .identifier member], rfl, fun vs _ => by simp [Token.uses]⟩

/-- Separators are no uses. -/
theorem dropWhile (ts : List Token) : Finds ts (ts.dropWhile (· = .statementEnd)) [] := by
  induction ts with
  | nil => exact refl []
  | cons token ts ih =>
    by_cases hsep : token = .statementEnd
    · subst hsep
      rw [List.dropWhile_cons_of_pos (by simp)]
      exact (Finds.token (by simp) ts).trans ih
    · rw [List.dropWhile_cons_of_neg (by simpa using hsep)]
      exact refl _

/-- The uses in the piece on its own. -/
theorem uses_piece (h : Finds ts us found) : ∃ piece, ts = piece ++ us ∧ Token.uses piece = found := by
  obtain ⟨piece, hts, hpiece⟩ := h
  refine ⟨piece, hts, ?_⟩
  have hend := hpiece [] (Or.inr rfl)
  rwa [List.append_nil, Token.uses, List.append_nil] at hend

end Finds

/-! ## Productions -/

/-- The names are those that are stored for the uses in what has been read of `ts` up to the state `t`. -/
def Accounts (w : Workspace) (ts : List Token) (t : State) (names : List (String × Bool)) : Prop :=
  ∃ us found, Views w t us ∧ Finds ts us found ∧ names = found.map (Use.stored w.externals)

/-- Where a production succeeds, what it has read accounts for the names in its result. -/
def Faithful {α : Type} (names : α → List (String × Bool)) (p : Production α) : Prop :=
  ∀ ⦃w : Workspace⦄ ⦃s t : State⦄ ⦃a : α⦄ ⦃ts : List Token⦄, Views w s ts → p s = .ok a t → Accounts w ts t (names a)

section

variable {α : Type} {names : α → List (String × Bool)} {item : Production α} {p : Production Expr}

/-- The commas between items use no name. -/
theorem faithful_itemsUpTo (h : Faithful names item) (n : Nat) : Faithful (List.flatMap names) (itemsUpTo item n) := by
  induction n with
  | zero => intro w s t a ts _ hp; cases hp
  | succ n ih =>
    intro w s t a ts hs hp
    obtain ⟨first, s₁, h₁, hp⟩ := bind_eq_ok.mp hp
    obtain ⟨us, found, hs₁, hfirst, hnames⟩ := h hs h₁
    rw [current_bind] at hp
    split at hp
    · rename_i hcomma
      obtain ⟨_, s₂, h₂, hp⟩ := bind_eq_ok.mp hp
      obtain ⟨rest, s₃, h₃, hp⟩ := bind_eq_ok.mp hp
      cases hp
      obtain ⟨vs, rfl, hs₂⟩ := hs₁.of_advance (current_of_isPunct hcomma) (by simp) h₂
      obtain ⟨ws, found', hs₃, hrest, hnames'⟩ := ih hs₂ h₃
      refine ⟨ws, found ++ found', hs₃, hfirst.trans ((Finds.token (by simp) vs).trans hrest), ?_⟩
      rw [List.flatMap_cons, hnames, hnames', List.map_append]
    · rw [current_bind] at hp
      split at hp
      · rename_i hclose
        obtain ⟨_, s₂, h₂, hp⟩ := bind_eq_ok.mp hp
        cases hp
        obtain ⟨vs, rfl, hs₂⟩ := hs₁.of_advance (current_of_isPunct hclose) (by simp) h₂
        refine ⟨vs, found, hs₂, ?_, by simpa using hnames⟩
        simpa using hfirst.trans (Finds.token (by simp) vs)
      · cases hp

/-- The parentheses around a list use no name. -/
theorem faithful_commaSeparated (h : Faithful names item) : Faithful (List.flatMap names) (commaSeparated item) := by
  intro w s t a ts hs hp
  rw [commaSeparated, current_bind] at hp
  split at hp
  · rename_i hclose
    obtain ⟨_, s₁, h₁, hp⟩ := bind_eq_ok.mp hp
    cases hp
    obtain ⟨us, rfl, hs₁⟩ := hs.of_advance (current_of_isPunct hclose) (by simp) h₁
    exact ⟨us, [], hs₁, .token (by simp) us, rfl⟩
  · exact faithful_itemsUpTo h _ hs hp

/-- A chain of operations accounts for its operands from left to right. The induction is on the tokens that are left. -/
theorem faithful_chain (hc : Consumes p) (ho : Faithful Expr.names p) {least : Nat} {rest : List (Operator × Expr)} :
    ∀ {w : Workspace} {s t : State} {ts : List Token}, Views w s ts → chain p least s = .ok rest t →
      Accounts w ts t (rest.flatMap fun x => x.2.names) := by
  induction rest with
  | nil =>
    intro w s t ts hs h
    rcases chain_ok_cases hc h with ⟨_, rfl, _⟩ | ⟨_, _, _, _, _, hcons, _⟩
    · exact ⟨ts, [], hs, .refl ts, rfl⟩
    · cases hcons
  | cons x rest ih =>
    intro w s t ts hs h
    rcases chain_ok_cases hc h with ⟨hnil, _⟩ | ⟨op, right, _, s₁, s₂, hcons, hop, _, h₁, h₂, hmore⟩
    · cases hnil
    · cases hcons
      obtain ⟨us, rfl, hs₁⟩ := hs.of_advance (Operator.eq_punct_of_ofToken? hop) (by simp) h₁
      obtain ⟨vs, found, hs₂, hright, hnames⟩ := ho hs₁ h₂
      obtain ⟨ws, found', hs₃, hrest, hnames'⟩ := ih hs₂ hmore
      refine ⟨ws, found ++ found', hs₃, (Finds.token (by simp) us).trans (hright.trans hrest), ?_⟩
      rw [List.flatMap_cons, hnames, hnames', List.map_append]

/-- The operators between the operands use no name. -/
theorem faithful_expressionWith (hc : Consumes p) (ho : Faithful Expr.names p) : Faithful Expr.names (expressionWith p) := by
  intro w s t e ts hs h
  obtain ⟨left, s₁, h₁, h⟩ := bind_eq_ok.mp h
  obtain ⟨us, found, hs₁, hleft, hnames⟩ := ho hs h₁
  obtain ⟨rest, hchain, hgroup⟩ := chain_of_operationsWith hc h
  obtain ⟨vs, found', hs₂, hrest, hnames'⟩ := faithful_chain hc ho hs₁ hchain
  refine ⟨vs, found ++ found', hs₂, hleft.trans hrest, ?_⟩
  rw [hgroup.names_eq, hnames, hnames', List.map_append]

/-- Where no member is read there is no point. -/
theorem member_none {s t : State} (h : member? s = .ok none t) : t = s ∧ ¬s.current.isPunct '.' = true := by
  rw [member?, current_bind] at h
  split at h
  · obtain ⟨_, s₁, _, h⟩ := bind_eq_ok.mp h
    rw [map_eq_bind] at h
    obtain ⟨_, s₂, _, h⟩ := bind_eq_ok.mp h
    cases h
  · rename_i hpoint
    cases h
    exact ⟨rfl, hpoint⟩

/-- Where neither a point nor a parenthesis follows, a name is a variable. -/
theorem endsOperand_of_current {s : State} {ts : List Token} (hs : Sees s ts) (hpoint : ¬s.current.isPunct '.' = true)
    (hopen : ¬s.current.isPunct '(' = true) : endsOperand ts = true := by
  cases ts with
  | nil => rfl
  | cons token ts =>
    rw [hs.current_eq] at hpoint hopen
    have hne : token ≠ .punct '.' := fun heq => hpoint (by rw [heq]; rfl)
    have hne' : token ≠ .punct '(' := fun heq => hopen (by rw [heq]; rfl)
    simp [endsOperand, hne, hne']

/-- A name with its arguments stands for what the table gives for it. -/
theorem namedWith_accounts (hc : Consumes p) (ho : Faithful Expr.names p) (first : String) (member : Option String) {w : Workspace}
    {s t : State} {e : Expr} {ts : List Token} (hs : Views w s ts) (h : namedWith p first member s = .ok e t) :
    (member = none ∧ t = s ∧ ¬s.current.isPunct '(' = true ∧ e = .var (w.externals.resolve first)) ∨
      ∃ us arguments, ts = .punct '(' :: us ∧
        e = .call (w.externals.resolve (member.elim first fun member => first ++ "." ++ member)) arguments ∧
        Accounts w us t (arguments.flatMap Expr.names) := by
  rw [namedWith, get_bind, current_bind, hs.workspace] at h
  split at h
  · obtain ⟨_, s₁, h₁, h⟩ := bind_eq_ok.mp h
    obtain ⟨us, rfl, hs₁⟩ := hs.expectPunct_ok h₁
    obtain ⟨arguments, s₂, h₂, h⟩ := bind_eq_ok.mp h
    obtain ⟨vs, found, hs₂, hlist, hnames⟩ := faithful_commaSeparated (faithful_expressionWith hc ho) hs₁ h₂
    cases h
    exact Or.inr ⟨us, arguments, rfl, rfl, vs, found, hs₂.note _, hlist, hnames⟩
  · rename_i hopen
    cases h
    cases member with
    | none => exact Or.inl ⟨rfl, rfl, by simpa using hopen, rfl⟩
    | some member => simp at hopen

/-- A reference accounts for its own name, and a call for those of its arguments behind it. -/
theorem faithful_referenceWith (hc : Consumes p) (ho : Faithful Expr.names p) : Faithful Expr.names (referenceWith p) := by
  intro w s t e ts hs h
  obtain ⟨first, s₁, h₁, hrest⟩ := bind_eq_ok.mp h
  obtain ⟨us, rfl, hs₁⟩ := hs.identifier_ok h₁
  obtain ⟨m, s₂, h₂, hnamed⟩ := bind_eq_ok.mp hrest
  cases m with
  | none =>
    obtain ⟨rfl, hpoint⟩ := member_none h₂
    rcases namedWith_accounts hc ho first none hs₁ hnamed with
      ⟨_, rfl, hopen, rfl⟩ | ⟨vs, arguments, rfl, rfl, ws, found, hs₃, hlist, hnames⟩
    · exact ⟨us, _, hs₁, .name first (endsOperand_of_current hs₁.sees hpoint hopen), rfl⟩
    · refine ⟨ws, _, hs₃, (Finds.callee first vs).trans hlist, ?_⟩
      rw [Expr.names, Expr.namesAll_eq_flatMap, hnames]
      rfl
  | some member =>
    rcases member_ok hs₁.sees h₂ with ⟨hnone, _⟩ | ⟨member', vs, hsome, rfl, hsees⟩
    · cases hnone
    · cases hsome
      have hs₂ : Views w s₂ vs := hs₁.of_ok (fun _ => .member) h₂ hsees
      rcases namedWith_accounts hc ho first (some member) hs₂ hnamed with
        ⟨hnone, _⟩ | ⟨xs, arguments, rfl, rfl, ws, found, hs₃, hlist, hnames⟩
      · cases hnone
      · refine ⟨ws, _, hs₃, (Finds.member first member _).trans ((Finds.token (by simp) xs).trans hlist), ?_⟩
        rw [Expr.names, Expr.namesAll_eq_flatMap, hnames]
        rfl

/-- The declared name is a use, and its first value holds the others. -/
theorem faithful_declarationWith (hc : Consumes p) (ho : Faithful Expr.names p) {w : Workspace} {s t : State} {e : Expr}
    {ts : List Token} (hs : Views w s (.keyword .var :: ts)) (h : declarationWith p s = .ok e t) :
    Accounts w (.keyword .var :: ts) t e.names := by
  obtain ⟨x, s₃, value, u, ⟨h₁, hx, h₂, hassign, h₃⟩, hvalue, rfl, rfl⟩ := (declarationWith_ok_iff hc).mp h
  have hs₁ := hs.advance_ok h₁
  obtain ⟨us, rfl, hs₂⟩ := hs₁.of_advance hx (by simp) h₂
  obtain ⟨vs, rfl, hs₃⟩ := hs₂.of_advance hassign (by simp) h₃
  obtain ⟨ws, found, hs₄, hfinds, hnames⟩ := faithful_expressionWith hc ho hs₃ hvalue
  refine ⟨ws, _, hs₄.note _, (Finds.token (by simp) _).trans ((Finds.name x (by rfl)).trans
    ((Finds.token (by simp) vs).trans hfinds)), ?_⟩
  rw [Expr.declaration, Expr.names, Expr.names, hnames, hs.workspace]
  rfl

/-- Separators that are passed over in search of `else` use no name, whether it is there or not. -/
theorem faithful_otherwiseWith (hc : Consumes p) (ho : Faithful Expr.names p) :
    Faithful (Option.elim · [] Expr.names) (otherwiseWith p) := by
  intro w s t no ts hs h
  rw [otherwiseWith, current_bind] at h
  split at h
  · rename_i helse
    obtain ⟨_, s₁, h₁, h⟩ := bind_eq_ok.mp h
    obtain ⟨us, rfl, hs₁⟩ := hs.of_advance helse (by simp) h₁
    obtain ⟨_, s₂, h₂, h⟩ := bind_eq_ok.mp h
    have hs₂ := hs₁.skipStatementEnds_ok h₂
    rw [map_eq_bind] at h
    obtain ⟨e, s₃, h₃, h⟩ := bind_eq_ok.mp h
    cases h
    obtain ⟨ws, found, hs₃, hfinds, hnames⟩ := faithful_expressionWith hc ho hs₂ h₃
    exact ⟨ws, found, hs₃, (Finds.token (by simp) us).trans ((Finds.dropWhile us).trans hfinds), hnames⟩
  · cases h
    exact ⟨ts, [], hs, .refl ts, rfl⟩

/-- A condition accounts for its test, its branch and its other branch in this order. -/
theorem faithful_conditionalWith (hc : Consumes p) (ho : Faithful Expr.names p) {w : Workspace} {s t : State} {e : Expr}
    {ts : List Token} (hs : Views w s (.keyword .if_ :: ts)) (h : conditionalWith p s = .ok e t) :
    Accounts w (.keyword .if_ :: ts) t e.names := by
  have hexpr := faithful_expressionWith hc ho
  obtain ⟨_, s₁, h₁, h⟩ := bind_eq_ok.mp h
  obtain ⟨_, s₂, h₂, h⟩ := bind_eq_ok.mp h
  obtain ⟨us, rfl, hs₂⟩ := (hs.advance_ok h₁).expectPunct_ok h₂
  obtain ⟨test, s₃, h₃, h⟩ := bind_eq_ok.mp h
  obtain ⟨vs, found₁, hs₃, htest, hnames₁⟩ := hexpr hs₂ h₃
  obtain ⟨_, s₄, h₄, h⟩ := bind_eq_ok.mp h
  obtain ⟨vs, rfl, hs₄⟩ := hs₃.expectPunct_ok h₄
  obtain ⟨_, s₅, h₅, h⟩ := bind_eq_ok.mp h
  obtain ⟨yes, s₆, h₆, h⟩ := bind_eq_ok.mp h
  obtain ⟨xs, found₂, hs₆, hyes, hnames₂⟩ := hexpr (hs₄.skipStatementEnds_ok h₅) h₆
  obtain ⟨_, s₇, h₇, h⟩ := bind_eq_ok.mp h
  obtain ⟨no, s₈, h₈, h⟩ := bind_eq_ok.mp h
  obtain ⟨ys, found₃, hs₈, hno, hnames₃⟩ := faithful_otherwiseWith hc ho (hs₆.skipStatementEnds_ok h₇) h₈
  cases h
  have hhead : Finds (.keyword .if_ :: .punct '(' :: us) us [] := (Finds.token (by simp) _).trans (.token (by simp) us)
  have hbranch : Finds (.punct ')' :: vs) xs found₂ := (Finds.token (by simp) vs).trans ((Finds.dropWhile vs).trans hyes)
  refine ⟨ys, _, hs₈.note _, hhead.trans (htest.trans (hbranch.trans ((Finds.dropWhile xs).trans hno))), ?_⟩
  have hnames₃ : no.elim [] Expr.names = found₃.map (Use.stored w.externals) := hnames₃
  rw [Expr.names_cond, hnames₁, hnames₂, hnames₃]
  simp

/-- The statements of a block account for their names one after the other. -/
theorem faithful_statementsUpTo (hc : Consumes p) (ho : Faithful Expr.names p) (n : Nat) :
    Faithful (List.flatMap Expr.names) (statementsUpTo p n) := by
  induction n with
  | zero =>
    intro w s t a ts hs h
    cases h
    exact ⟨ts, [], hs, .refl ts, rfl⟩
  | succ n ih =>
    intro w s t a ts hs h
    obtain ⟨_, s₁, h₁, h⟩ := bind_eq_ok.mp h
    have hs₁ := hs.skipStatementEnds_ok h₁
    have hskip := Finds.dropWhile ts
    generalize ts.dropWhile (· = .statementEnd) = us at hs₁ hskip
    suffices hgoal : Accounts w us t (a.flatMap Expr.names) by
      obtain ⟨vs, found, ht, hfinds, hnames⟩ := hgoal
      exact ⟨vs, found, ht, hskip.trans hfinds, hnames⟩
    rw [current_bind] at h
    revert h
    generalize hcur : s₁.current = token
    split
    · intro h
      obtain ⟨_, s₂, h₂, h⟩ := bind_eq_ok.mp h
      cases h
      obtain ⟨vs, rfl, hs₂⟩ := hs₁.of_advance hcur (by simp) h₂
      exact ⟨vs, [], hs₂, .token (by simp) vs, rfl⟩
    · intro h
      cases h
      exact ⟨us, [], hs₁, .refl us, rfl⟩
    · intro h
      cases h
      exact ⟨us, [], hs₁, .refl us, rfl⟩
    · intro h
      obtain ⟨statement, s₂, h₂, h⟩ := bind_eq_ok.mp h
      obtain ⟨rest, s₃, h₃, h⟩ := bind_eq_ok.mp h
      cases h
      obtain ⟨vs, found, hs₂, hstatement, hnames⟩ := faithful_expressionWith hc ho hs₁ h₂
      obtain ⟨ws, found', hs₃, hrest, hnames'⟩ := ih hs₂ h₃
      refine ⟨ws, found ++ found', hs₃, hstatement.trans hrest, ?_⟩
      rw [List.flatMap_cons, hnames, hnames', List.map_append]

theorem faithful_blockWith (hc : Consumes p) (ho : Faithful Expr.names p) : Faithful Expr.names (blockWith p) := by
  intro w s t e ts hs h
  obtain ⟨_, s₁, h₁, h⟩ := bind_eq_ok.mp h
  obtain ⟨us, rfl, hs₁⟩ := hs.expectPunct_ok h₁
  rw [get_bind] at h
  obtain ⟨statements, s₂, h₂, h⟩ := bind_eq_ok.mp h
  cases h
  obtain ⟨s₃, h₃, rfl⟩ := insideBlock_ok h₂
  obtain ⟨vs, found, hs₃, hfinds, hnames⟩ := faithful_statementsUpTo hc ho _ hs₁.enter h₃
  refine ⟨vs, found, hs₃.leave, (Finds.token (by simp) us).trans hfinds, ?_⟩
  rw [Expr.names, Expr.namesAll_eq_flatMap, hnames]

/-- Every kind of operand accounts for its names if the operands inside it do. -/
theorem faithful_primaryWith (hc : Consumes p) (ho : Faithful Expr.names p) : Faithful Expr.names (primaryWith p) := by
  intro w s t e ts hs h
  have hexpr := faithful_expressionWith hc ho
  rw [primaryWith, current_bind] at h
  cases ts with
  | nil =>
    rw [hs.sees.current_nil] at h
    cases h
  | cons token ts =>
    rw [hs.sees.current_eq] at h
    revert h
    split
    · intro h
      obtain ⟨_, s₁, h₁, h⟩ := bind_eq_ok.mp h
      cases h
      exact ⟨ts, [], hs.advance_ok h₁, .token (by simp) ts, rfl⟩
    · exact fun h => faithful_referenceWith hc ho hs h
    · intro h
      obtain ⟨_, s₁, h₁, h⟩ := bind_eq_ok.mp h
      obtain ⟨value, s₂, h₂, h⟩ := bind_eq_ok.mp h
      cases h
      obtain ⟨us, found, hs₂, hfinds, hnames⟩ := hexpr (hs.advance_ok h₁) h₂
      exact ⟨us, found, hs₂, (Finds.token (by simp) ts).trans hfinds, by rw [Expr.names, hnames]⟩
    · exact fun h => faithful_declarationWith hc ho hs h
    · exact fun h => faithful_conditionalWith hc ho hs h
    · intro h
      obtain ⟨_, s₁, h₁, h⟩ := bind_eq_ok.mp h
      obtain ⟨inner, s₂, h₂, h⟩ := bind_eq_ok.mp h
      obtain ⟨us, found, hs₂, hfinds, hnames⟩ := hexpr (hs.advance_ok h₁) h₂
      obtain ⟨_, s₃, h₃, h⟩ := bind_eq_ok.mp h
      obtain ⟨vs, rfl, hs₃⟩ := hs₂.expectPunct_ok h₃
      cases h
      refine ⟨vs, found, hs₃, ?_, hnames⟩
      simpa using (Finds.token (by simp) ts).trans (hfinds.trans (.token (by simp) vs))
    · exact fun h => faithful_blockWith hc ho hs h
    · intro h
      cases h

end

/-- The circle is closed by induction on the bound. -/
theorem faithful_primaryUpTo (n : Nat) : Faithful Expr.names (primaryUpTo n) := by
  induction n with
  | zero => intro w s t e ts _ h; cases h
  | succ n ih => exact faithful_primaryWith (consumes_primaryUpTo n) ih

/-- An operand stores the names that the table gives for the uses in it. -/
theorem faithful_primary : Faithful Expr.names primary :=
  fun _ _ _ _ _ hs h => faithful_primaryUpTo _ hs h

/-- An expression stores the names that the table gives for the uses in it. -/
theorem faithful_expression : Faithful Expr.names expression :=
  faithful_expressionWith consumes_primary faithful_primary

theorem faithful_block : Faithful Expr.names block :=
  faithful_blockWith consumes_primary faithful_primary

end Offside
