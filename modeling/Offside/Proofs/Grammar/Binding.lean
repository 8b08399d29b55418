import Offside.Proofs.Grammar.Uses

/-!
# Names that a script binds

A script has no scopes: the table of external names is asked for every use of a name, whatever the name is bound to around it. A
source that is read without a diagnostic is a row of separators, expressions and functions (`Stretch`). Functions and parameters are
stored with the names they are written with, and each use is stored under what the table gives for it. So a use of a parameter, or a
call of a function of the script, is stored under the name of the parameter or function exactly if the table leaves that name alone
(`Workspace.read_resolves_uses`).
-/

namespace Offside

open Production Grammar

/-- A part of a source, with what is stored for it. -/
inductive Stretch where
  | separator
  /-- An expression outside functions. -/
  | expression (tokens : List Token) (value : Expr)
  /-- A function. The separators between its head and its body are counted. -/
  | function (prototype : Prototype) (gap : Nat) (tokens : List Token) (body : Expr)

namespace Stretch

/-- The tokens of a function up to its body. -/
def head (prototype : Prototype) (gap : Nat) : List Token :=
  .keyword .function :: .identifier prototype.name :: .punct '(' ::
    (Token.joined ',' (prototype.params.map fun param => [.identifier param]) ++ .punct ')' :: List.replicate gap .statementEnd)

/-- The tokens of a stretch. -/
def tokens : Stretch → List Token
  | separator => [.statementEnd]
  | expression tokens _ => tokens
  | function prototype gap tokens _ => head prototype gap ++ tokens

/-- The uses of names in an expression outside functions, or in the body of a function. -/
def uses : Stretch → List Use
  | separator => []
  | expression tokens _ => Token.uses tokens
  | function _ _ tokens _ => Token.uses tokens

/-- The names that are stored for an expression outside functions, or for the body of a function. -/
def names : Stretch → List (String × Bool)
  | separator => []
  | expression _ value => value.names
  | function _ _ _ body => body.names

/-- What is stored outside functions, under the prototype for such expressions. -/
def global? (prototype : Prototype) : Stretch → Option Function
  | expression _ value => some ⟨prototype, value⟩
  | _ => none

/-- The function that is stored. -/
def function? : Stretch → Option Function
  | function prototype _ _ body => some ⟨prototype, body⟩
  | _ => none

/-- Every use is stored under the name that the table gives for it. -/
def Resolves (table : Externals) (x : Stretch) : Prop := x.names = x.uses.map (Use.stored table)

/-- A name without a member keeps its spelling exactly if the table leaves it alone. -/
theorem Resolves.kept_iff {table : Externals} {x : Stretch} (h : x.Resolves table) {i : Nat} {u : Use} (hu : x.uses[i]? = some u)
    (hmember : u.member = none) : x.names[i]? = some (u.name, u.called) ↔ table.resolve u.name = u.name := by
  have hwritten : u.written = u.name := by rw [Use.written, hmember]; rfl
  rw [h, List.getElem?_map, hu, Option.map_some, Use.stored, hwritten, Option.some_inj, Prod.mk.injEq]
  exact ⟨And.left, fun hname => ⟨hname, rfl⟩⟩

end Stretch

/-! ## Heads of functions -/

section

variable {w : Workspace} {s t : State} {ts : List Token}

/-- Parameters that were read stood first among the tokens, with commas between them. The induction is on the bound. -/
theorem params_ok {expected : String} (n : Nat) : ∀ {s t : State} {ts : List Token} {params : List String}, Views w s ts →
    itemsUpTo (identifier expected) n s = .ok params t → params ≠ [] ∧
      ∃ us, ts = Token.joined ',' (params.map fun param => [.identifier param]) ++ .punct ')' :: us ∧ Views w t us := by
  induction n with
  | zero => intro s t ts params _ h; cases h
  | succ n ih =>
    intro s t ts params hs h
    obtain ⟨first, s₁, h₁, h⟩ := bind_eq_ok.mp h
    obtain ⟨us, rfl, hs₁⟩ := hs.identifier_ok h₁
    rw [current_bind] at h
    split at h
    · rename_i hcomma
      obtain ⟨_, s₂, h₂, h⟩ := bind_eq_ok.mp h
      obtain ⟨more, s₃, h₃, h⟩ := bind_eq_ok.mp h
      cases h
      obtain ⟨vs, rfl, hs₂⟩ := hs₁.of_advance (current_of_isPunct hcomma) (by simp) h₂
      obtain ⟨hne, ws, rfl, hs₃⟩ := ih hs₂ h₃
      refine ⟨by simp, ws, ?_, hs₃⟩
      cases more with
      | nil => exact absurd rfl hne
      | cons second more => simp [Token.joined]
    · rw [current_bind] at h
      split at h
      · rename_i hclose
        obtain ⟨_, s₂, h₂, h⟩ := bind_eq_ok.mp h
        cases h
        obtain ⟨vs, rfl, hs₂⟩ := hs₁.of_advance (current_of_isPunct hclose) (by simp) h₂
        exact ⟨by simp, vs, rfl, hs₂⟩
      · cases h

/-- The name and the parameters of a function are those that are written. -/
theorem prototype_written {f : Prototype} (hs : Views w s ts) (h : prototype s = .ok f t) :
    ∃ us, .keyword .function :: ts = Stretch.head f 0 ++ us ∧ Views w t us := by
  obtain ⟨name, s₁, h₁, h⟩ := bind_eq_ok.mp h
  obtain ⟨us, rfl, hs₁⟩ := hs.identifier_ok h₁
  obtain ⟨_, s₂, h₂, h⟩ := bind_eq_ok.mp h
  obtain ⟨us, rfl, hs₂⟩ := hs₁.expectPunct_ok h₂
  obtain ⟨params, s₃, h₃, h⟩ := bind_eq_ok.mp h
  cases h
  rw [commaSeparated, current_bind] at h₃
  split at h₃
  · rename_i hclose
    obtain ⟨_, s₄, h₄, h₃⟩ := bind_eq_ok.mp h₃
    cases h₃
    obtain ⟨vs, rfl, hs₄⟩ := hs₂.of_advance (current_of_isPunct hclose) (by simp) h₄
    exact ⟨vs, rfl, hs₄⟩
  · obtain ⟨_, vs, rfl, hs₃⟩ := params_ok _ hs₂ h₃
    exact ⟨vs, by simp [Stretch.head], hs₃⟩

/-- Tokens are some separators and what stands behind them. -/
theorem exists_separators (ts : List Token) : ∃ gap, ts = List.replicate gap .statementEnd ++ ts.dropWhile (· = .statementEnd) := by
  induction ts with
  | nil => exact ⟨0, rfl⟩
  | cons token ts ih =>
    by_cases hsep : token = .statementEnd
    · obtain ⟨gap, hgap⟩ := ih
      refine ⟨gap + 1, ?_⟩
      rw [List.dropWhile_cons_of_pos (by simpa using hsep), List.replicate_succ, List.cons_append, ← hgap, hsep]
    · exact ⟨0, by rw [List.dropWhile_cons_of_neg (by simpa using hsep)]; rfl⟩

/-- A function is read from its head, separators, and a body. -/
theorem function_written {f : Function} (hs : Views w s (.keyword .function :: ts)) (h : function s = .ok f t) :
    ∃ gap body us, .keyword .function :: ts = Stretch.head f.prototype gap ++ body ++ us ∧ Views w t us ∧
      f.body.names = (Token.uses body).map (Use.stored w.externals) := by
  obtain ⟨_, s₁, h₁, h⟩ := bind_eq_ok.mp h
  obtain ⟨prototype, s₂, h₂, h⟩ := bind_eq_ok.mp h
  obtain ⟨us, hhead, hs₂⟩ := prototype_written (hs.advance_ok h₁) h₂
  obtain ⟨_, s₃, h₃, h⟩ := bind_eq_ok.mp h
  obtain ⟨gap, hgap⟩ := exists_separators us
  rw [current_bind] at h
  split at h
  · cases h
  · obtain ⟨body, s₄, h₄, h⟩ := bind_eq_ok.mp h
    cases h
    obtain ⟨vs, found, hs₄, hfinds, hnames⟩ := faithful_block (hs₂.skipStatementEnds_ok h₃) h₄
    obtain ⟨piece, hpiece, rfl⟩ := hfinds.uses_piece
    refine ⟨gap, piece, vs, ?_, hs₄.note _, hnames⟩
    rw [hhead, hgap, hpiece]
    simp [Stretch.head]

end

/-! ## Scripts -/

namespace State

/-- A construct that is stored is one stretch of the tokens. -/
theorem construct_stretch {w : Workspace} {s t : State} {ts : List Token} (hs : Views w s ts) (hend : s.current ≠ .endOfInput)
    (h : s.construct = .ok () t) : ∃ (x : Stretch) (us : List Token), ts = x.tokens ++ us ∧ x.Resolves w.externals ∧
      Views (w.extend (x.global? w.globalPrototype).toList x.function?.toList) t us := by
  rcases construct_ok_cases h with ⟨hc, f, u, hf, rfl⟩ | ⟨hc, f, u, hf, rfl⟩
  · cases ts with
    | nil => exact absurd hs.sees.current_nil hend
    | cons token ts =>
      obtain rfl : token = .keyword .function := hs.sees.current_eq.symm.trans hc
      obtain ⟨gap, body, us, hts, hu, hnames⟩ := function_written hs hf
      refine ⟨.function f.prototype gap body f.body, us, hts, hnames, hu.sees.congr rfl rfl, ?_⟩
      show u.workspace.addFunction f = _
      rw [hu.workspace, Workspace.addFunction_eq_extend]
      rfl
  · obtain ⟨e, v, he, hf⟩ := bind_eq_ok.mp hf
    rw [get_bind] at hf
    cases hf
    obtain ⟨us, found, hu, hfinds, hnames⟩ := faithful_expression hs he
    obtain ⟨piece, rfl, rfl⟩ := hfinds.uses_piece
    refine ⟨.expression piece e, us, rfl, hnames, hu.sees.congr rfl rfl, ?_⟩
    show u.workspace.addGlobal _ = _
    rw [hu.workspace, Workspace.addGlobal_eq_extend]
    rfl

/-- A script without diagnostics is a row of stretches, and stores what stands in them. -/
theorem script_stretches {w : Workspace} {s : State} {ts : List Token} (hp : Proper s) (hs : Views w s ts)
    (hclean : s.script.2 = []) : ∃ stretches : List Stretch, ts = stretches.flatMap Stretch.tokens ∧
      (∀ x ∈ stretches, x.Resolves w.externals) ∧ s.script.1.workspace =
        w.extend (stretches.filterMap (Stretch.global? w.globalPrototype)) (stretches.filterMap Stretch.function?) := by
  induction s, hp using inductRounds generalizing ts w with
  | ended s hp hend =>
    cases ts with
    | cons token ts => exact absurd hend hs.sees.current_ne_end
    | nil => exact ⟨[], rfl, by simp, by rw [script_end hend, hs.workspace]; exact (Workspace.extend_nil w).symm⟩
  | separator s hp hsep ih =>
    cases ts with
    | nil => exact absurd (hs.sees.current_nil.symm.trans hsep) (by simp)
    | cons token ts =>
      obtain rfl : token = .statementEnd := hs.sees.current_eq.symm.trans hsep
      obtain ⟨t, ha, ht⟩ := hs.advance
      have hpass := pass_of_ok ha
      rw [hpass] at ih
      rw [script_separator hp hsep, hpass] at hclean
      obtain ⟨stretches, rfl, hresolves, hw⟩ := ih ht hclean
      refine ⟨.separator :: stretches, rfl, ?_, ?_⟩
      · exact List.forall_mem_cons.mpr ⟨rfl, hresolves⟩
      · rw [script_separator hp hsep, hpass, hw]
        rfl
  | stored s t hp hend hsep hc ih =>
    rw [script_stored hp hend hsep hc] at hclean ⊢
    obtain ⟨x, us, rfl, hx, ht⟩ := construct_stretch hs hend hc
    obtain ⟨stretches, rfl, hresolves, hw⟩ := ih ht hclean
    refine ⟨x :: stretches, by rw [List.flatMap_cons], List.forall_mem_cons.mpr ⟨hx, hresolves⟩, ?_⟩
    rw [hw, Workspace.extend_extend, List.filterMap_cons, List.filterMap_cons]
    cases x <;> rfl
  | failed s d t hp hend hsep hc ih =>
    rw [script_failed hp hend hsep hc] at hclean
    cases hclean

end State

/-- A source without diagnostics is a row of stretches, and what stands in them is stored: functions and parameters under the names
they are written with, and each use of a name under what the table gives for it. So a use that is spelled like a parameter of the
function around it is stored under the name of the parameter exactly if the table leaves that name alone, and so is a call that is
spelled like a function of the source. -/
theorem Workspace.read_resolves_uses (w : Workspace) (source : String) (hclean : (w.read source).diagnostics = []) :
    ∃ stretches : List Stretch,
      (TokenStream.ofSource source).items.map (·.lexed) = (stretches.flatMap Stretch.tokens).map .token ∧
      (w.read source).workspace =
        w.extend (stretches.filterMap (Stretch.global? w.globalPrototype)) (stretches.filterMap Stretch.function?) ∧
      (∀ x ∈ stretches, x.Resolves w.externals) ∧
      (∀ x ∈ stretches, ∀ f, x.function? = some f → ∀ (i : Nat) (u : Use), x.uses[i]? = some u → u.member = none →
        u.name ∈ f.params → (f.body.names[i]? = some (u.name, u.called) ↔ w.externals.resolve u.name = u.name)) ∧
      ∀ f ∈ stretches.filterMap Stretch.function?, ∀ x ∈ stretches, ∀ i : Nat, x.uses[i]? = some ⟨f.name, none, true⟩ →
        (x.names[i]? = some (f.name, true) ↔ w.externals.resolve f.name = f.name) := by
  obtain ⟨ts, hts⟩ := State.scriptUpTo_tokens _ (Nat.le_refl _) (.start source w) hclean
  obtain ⟨s, hproper, hs, hworkspace, hdiagnostics⟩ := w.read_behind_start hts
  obtain ⟨stretches, rfl, hresolves, hw⟩ := State.script_stretches hproper hs (hdiagnostics.symm.trans hclean)
  refine ⟨stretches, hts, hworkspace.trans hw, hresolves, ?_, ?_⟩
  · intro x hx f hf i u hu hmember _
    have hkept := (hresolves x hx).kept_iff hu hmember
    cases x with
    | function prototype gap tokens body =>
      cases hf
      exact hkept
    | _ => cases hf
  · intro f _ x hx i hu
    exact (hresolves x hx).kept_iff hu rfl

/-- Of two parameters one is in the table, and the other is not. -/
theorem Workspace.read_resolves_uses_parameters :
    let w := Workspace.new (.ofList [("x", "y")]) {}
    let source := "function f(x, z) { return g(x, z) }"
    (w.read source).diagnostics = [] ∧ ∃ stretches : List Stretch,
      (w.read source).workspace =
        w.extend (stretches.filterMap (Stretch.global? w.globalPrototype)) (stretches.filterMap Stretch.function?) ∧
      ∀ x ∈ stretches, ∀ f, x.function? = some f → ∀ i : Nat,
        (x.uses[i]? = some ⟨"z", none, false⟩ → "z" ∈ f.params → f.body.names[i]? = some ("z", false)) ∧
        (x.uses[i]? = some ⟨"x", none, false⟩ → "x" ∈ f.params → f.body.names[i]? ≠ some ("x", false)) := by
  intro w source
  have hclean : (w.read source).diagnostics = [] := List.isEmpty_iff.mp (by decide +kernel)
  obtain ⟨stretches, _, hworkspace, _, hparams, _⟩ := read_resolves_uses w source hclean
  refine ⟨hclean, stretches, hworkspace, fun x hx f hf i => ⟨fun hu hz => ?_, fun hu hz => ?_⟩⟩
  · exact (hparams x hx f hf i _ hu rfl hz).mpr (by decide +kernel)
  · exact fun hkept => absurd ((hparams x hx f hf i _ hu rfl hz).mp hkept) (by decide +kernel)

/-- A parameter that is in the table is used under another name than it is declared with, and a function that is in the table is
called under another name than it is defined with. -/
theorem Workspace.read_renames_bound :
    let source := "function f(x) { return x }"
    let body : List Token := [.punct '{', .keyword .return_, .identifier "x", .punct '}']
    let parameter := (Workspace.new (.ofList [("x", "y")]) {}).read source
    let called := (Workspace.new (.ofList [("f", "g")]) {}).read "function f() { }\nf()"
    (parameter.diagnostics = [] ∧
        (TokenStream.ofSource source).items.map (·.lexed) = (Stretch.head ⟨"f", ["x"]⟩ 0 ++ body).map .token ∧
        Token.uses body = [⟨"x", none, false⟩] ∧
        parameter.workspace.functions.map (fun f => (f.prototype, f.body.names)) = [(⟨"f", ["x"]⟩, [("y", false)])]) ∧
      called.diagnostics = [] ∧ called.workspace.functions.map Function.prototype = [⟨"f", []⟩] ∧
      called.workspace.globals.map (fun f => f.body.names) = [[("g", true)]] := by
  refine ⟨⟨List.isEmpty_iff.mp ?_, ?_⟩, List.isEmpty_iff.mp ?_, ?_⟩ <;> decide +kernel

end Offside
