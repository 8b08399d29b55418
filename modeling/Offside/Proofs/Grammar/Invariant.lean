import Offside.Grammar.Script
import Offside.Proofs.Formed
import Offside.Proofs.Grammar.Precedence
import Offside.Proofs.Token.Stream

/-!
# What reading leaves alone and what it yields

`Keeps I Q p` says that a production keeps the invariant `I` of the state, whether it succeeds or fails, and yields values in `Q`. The
invariant used here says that the tokens to come are spelled as they should be and that the workspace is a given one; so no production
changes the workspace, and what it yields is well-formed inside as many blocks as are open.
-/

namespace Offside

open Production Grammar

/-- A production keeps an invariant of the state, and the values it yields are in `Q`. -/
def Keeps {α : Type} (I : State → Prop) (Q : α → Prop) (p : Production α) : Prop :=
  ∀ s, I s → match p s with
    | .ok a t => Q a ∧ I t
    | .error _ t => I t

/-- A state with a given workspace, in front of tokens that are spelled as they should be. -/
structure Ready (w : Workspace) (s : State) : Prop where
  current : s.current.Spelled
  items : ∀ i ∈ s.stream.items, i.lexed.Spelled
  workspace : s.workspace = w

/-- Events are no part of what a state has to fulfil. -/
theorem Ready.note {w : Workspace} {s : State} (h : Ready w s) (event : Event) : Ready w (s.note event) :=
  ⟨h.current, h.items, h.workspace⟩

/-- The state before a source is read. -/
theorem Ready.start (source : String) (w : Workspace) : Ready w (State.start source w) where
  current := trivial
  items := TokenStream.ofSource_spelled source
  workspace := rfl

namespace Keeps

section

variable {α β : Type} {I : State → Prop} {Q : α → Prop} {R : β → Prop} {p : Production α}

/-- What success gives: a value in `Q`, and the invariant behind it. -/
theorem ok (h : Keeps I Q p) {s t : State} {a : α} (hs : I s) (hp : p s = .ok a t) : Q a ∧ I t := by
  have hres := h s hs
  rw [hp] at hres
  exact hres

/-- What failure leaves: the invariant. -/
theorem error (h : Keeps I Q p) {s t : State} {d : Diagnostic} (hs : I s) (hp : p s = .error d t) : I t := by
  have hres := h s hs
  rw [hp] at hres
  exact hres

/-- One production after another, the second for every value that the first may yield. -/
theorem bind {f : α → Production β} (hp : Keeps I Q p) (hf : ∀ a, Q a → Keeps I R (f a)) : Keeps I R (p >>= f) := by
  intro s hs
  cases h : p s with
  | ok a t =>
    obtain ⟨ha, ht⟩ := hp.ok hs h
    rw [bind_of_ok h]
    exact hf a ha t ht
  | error d t =>
    rw [bind_of_error h]
    exact hp.error hs h

/-- A value that is at hand. -/
theorem pure {a : α} (h : Q a) : Keeps I Q (Pure.pure a) := fun _ hs => ⟨h, hs⟩

/-- Values may be promised less than they are. -/
theorem mono {Q' : α → Prop} (h : Keeps I Q p) (hQ : ∀ a, Q a → Q' a) : Keeps I Q' p := by
  intro s hs
  cases hp : p s with
  | ok a t =>
    obtain ⟨ha, ht⟩ := h.ok hs hp
    exact ⟨hQ a ha, ht⟩
  | error d t => exact h.error hs hp

/-- A value made from the value of a production. -/
theorem map {f : α → β} (h : Keeps I Q p) (hf : ∀ a, Q a → R (f a)) : Keeps I R (f <$> p) := by
  rw [map_eq_bind]
  exact h.bind fun a ha => pure (hf a ha)

/-- A failure keeps every invariant and promises nothing. -/
theorem unexpected (expected : String) : Keeps I Q (Production.unexpected expected) := fun _ hs => hs

theorem invalidDeclaration (detail : String) : Keeps I Q (Production.invalidDeclaration detail) := fun _ hs => hs

/-- A loop keeps what each of its bounded runs keeps. -/
theorem bounded {u : Nat → Production α} (h : ∀ n, Keeps I Q (u n)) : Keeps I Q (Production.bounded u) :=
  fun s hs => h s.remaining s hs

end

variable {α : Type} {Q : α → Prop} {w : Workspace} {p : Production α}

/-- The lookahead is spelled as it should be. -/
theorem current : Keeps (Ready w) Token.Spelled Production.current := fun _ hs => ⟨hs.current, hs⟩

/-- The workspace that a production sees is the one the state is kept with. -/
theorem get : Keeps (Ready w) (fun s => s.workspace = w) (MonadState.get : Production State) := fun _ hs => ⟨hs.workspace, hs⟩

theorem note (event : Event) : Keeps (Ready w) (fun _ => True) (Production.note event) :=
  fun _ hs => ⟨trivial, hs.note event⟩

/-- Going on to the next token keeps the state ready, also where a malformed literal stands in its place. -/
theorem advance : Keeps (Ready w) (fun _ => True) Production.advance := by
  intro s hs
  cases hi : s.stream.items with
  | nil =>
    rw [advance_end hi]
    exact ⟨trivial, trivial, hs.items, hs.workspace⟩
  | cons i is =>
    have hi' : i.lexed.Spelled := hs.items i (by simp [hi])
    have his : ∀ j ∈ s.stream.tail.items, j.lexed.Spelled := fun j hj => hs.items j (List.mem_of_mem_tail hj)
    cases hl : i.lexed with
    | token token =>
      rw [advance_token hi hl]
      rw [hl] at hi'
      exact ⟨trivial, hi'.1, his, hs.workspace⟩
    | malformed literal =>
      rw [advance_malformed hi hl]
      exact ⟨hs.current, his, hs.workspace⟩

theorem expectPunct (c : Char) (expected : String) : Keeps (Ready w) (fun _ => True) (Production.expectPunct c expected) := by
  refine current.bind fun t _ => ?_
  split
  · exact advance
  · exact unexpected expected

/-- The name that is read is a name. -/
theorem identifier (expected : String) : Keeps (Ready w) (fun name => isName name = true) (Production.identifier expected) := by
  refine current.bind fun t ht => ?_
  split
  · exact advance.bind fun _ _ => pure ht
  · exact unexpected expected

theorem skipUpTo (n : Nat) : Keeps (Ready w) (fun _ => True) (Production.skipUpTo n) := by
  induction n with
  | zero => exact pure trivial
  | succ n ih =>
    refine current.bind fun t _ => ?_
    split
    · exact advance.bind fun _ _ => ih
    · exact pure trivial

theorem skipStatementEnds : Keeps (Ready w) (fun _ => True) Production.skipStatementEnds := bounded skipUpTo

/-- A list holds what its items are promised to be. -/
theorem itemsUpTo (h : Keeps (Ready w) Q p) (n : Nat) : Keeps (Ready w) (fun as => ∀ a ∈ as, Q a) (Production.itemsUpTo p n) := by
  induction n with
  | zero => exact unexpected _
  | succ n ih =>
    refine h.bind fun first hfirst => current.bind fun t _ => ?_
    split
    · refine advance.bind fun _ _ => ih.bind fun rest hrest => pure ?_
      intro a ha
      rcases List.mem_cons.mp ha with rfl | ha
      · exact hfirst
      · exact hrest a ha
    · refine current.bind fun t _ => ?_
      split
      · refine advance.bind fun _ _ => pure ?_
        intro a ha
        rw [List.mem_singleton.mp ha]
        exact hfirst
      · exact unexpected _

/-- A list in parentheses holds what its items are promised to be, also where it is empty. -/
theorem commaSeparated (h : Keeps (Ready w) Q p) :
    Keeps (Ready w) (fun as => ∀ a ∈ as, Q a) (Production.commaSeparated p) := by
  refine current.bind fun t _ => ?_
  split
  · exact advance.bind fun _ _ => pure (by simp)
  · exact bounded fun n => itemsUpTo h (n + 1)

/-- Inside a block the workspace has one more open block, and behind it the workspace is as it was. -/
theorem insideBlock (h : Keeps (Ready { w with depth := w.depth + 1 }) Q p) : Keeps (Ready w) Q (Grammar.insideBlock p) := by
  intro s hs
  have henter : Ready { w with depth := w.depth + 1 } s.enter := ⟨hs.current, hs.items, by simp [State.enter, hs.workspace]⟩
  have hleave : ∀ t, Ready { w with depth := w.depth + 1 } t → Ready w t.leave :=
    fun t ht => ⟨ht.current, ht.items, by simp [State.leave, ht.workspace]⟩
  rw [insideBlock_apply]
  cases hp : p s.enter with
  | ok a t =>
    obtain ⟨ha, ht⟩ := h.ok henter hp
    exact ⟨ha, hleave t ht⟩
  | error d t => exact hleave t (h.error henter hp)

end Keeps

/-! ## What the productions of the grammar yield -/

/-- The names that reading stores for the names of a source: a variable, a function that is called, and a member that is. -/
structure Naming (V C : String → Prop) (table : Externals) : Prop where
  var : ∀ name, isName name = true → V (table.resolve name)
  callee : ∀ name, isName name = true → C (table.resolve name)
  member : ∀ name member, isName name = true → isName member = true → C (table.resolve (name ++ "." ++ member))

/-- An operand that yields well-formed expressions, however many blocks are open. -/
def Forming (V C : String → Prop) (table : Externals) (operand : Production Expr) : Prop :=
  ∀ w : Workspace, w.externals = table → Keeps (Ready w) (Expr.Formed V C w.depth) operand

namespace Keeps

variable {V C : String → Prop} {table : Externals} {operand : Production Expr} {w : Workspace}

/-- Operations over well-formed operands are well-formed. The induction is on the bound, for every left operand at once. -/
theorem operationsUpTo (h : Keeps (Ready w) (Expr.Formed V C w.depth) operand) (n : Nat) :
    ∀ (least : Nat) {left : Expr}, left.Formed V C w.depth →
      Keeps (Ready w) (Expr.Formed V C w.depth) (Grammar.operationsUpTo operand n least left) := by
  induction n with
  | zero => exact fun _ _ hleft => pure hleft
  | succ n ih =>
    intro least left hleft
    refine current.bind fun t _ => ?_
    split
    · exact pure hleft
    · rename_i op hop
      have hmem := symbol_mem_operatorSymbols op (Operator.mem_all_of_ofToken? hop)
      split
      · exact pure hleft
      · refine advance.bind fun _ _ => h.bind fun right hright => current.bind fun next _ => ?_
        have htail : ∀ {right : Expr}, right.Formed V C w.depth → Keeps (Ready w) (Expr.Formed V C w.depth)
            (Grammar.operationsUpTo operand n least (.operation left op.symbol right)) :=
          fun hright => ih least (.operation hmem hleft hright)
        split
        · exact htail hright
        · dsimp only
          split
          · exact (ih _ hright).bind fun _ hright' => htail hright'
          · exact htail hright

/-- The bound is met by the tokens that are left. -/
theorem operationsWith (h : Keeps (Ready w) (Expr.Formed V C w.depth) operand) (least : Nat) {left : Expr}
    (hleft : left.Formed V C w.depth) :
    Keeps (Ready w) (Expr.Formed V C w.depth) (Grammar.operationsWith operand least left) :=
  bounded fun n => operationsUpTo h n least hleft

theorem expressionWith (h : Keeps (Ready w) (Expr.Formed V C w.depth) operand) :
    Keeps (Ready w) (Expr.Formed V C w.depth) (Grammar.expressionWith operand) :=
  h.bind fun _ hleft => operationsWith h 0 hleft

/-- The name behind a dot is a name. -/
theorem member : Keeps (Ready w) (fun m => ∀ name ∈ m, isName name = true) Grammar.member? := by
  refine current.bind fun t _ => ?_
  split
  · refine advance.bind fun _ _ => (identifier _).map fun name hname => ?_
    intro name' heq
    cases heq
    exact hname
  · exact pure (by simp)

/-- A name that has been read, with or without a member, becomes a resolved reference or a call of one. -/
theorem namedWith (hn : Naming V C table) (hw : w.externals = table) (h : Keeps (Ready w) (Expr.Formed V C w.depth) operand)
    {first : String} {m : Option String} (hfirst : isName first = true) (hm : ∀ name ∈ m, isName name = true) :
    Keeps (Ready w) (Expr.Formed V C w.depth) (Grammar.namedWith operand first m) := by
  refine get.bind fun s hs => current.bind fun t _ => ?_
  rw [hs, hw]
  have hcallee : C (table.resolve (m.elim first fun member => first ++ "." ++ member)) := by
    cases m with
    | none => exact hn.callee first hfirst
    | some member => exact hn.member first member hfirst (hm member rfl)
  split
  · exact (expectPunct _ _).bind fun _ _ => (commaSeparated (expressionWith h)).bind fun arguments harguments =>
      (note _).bind fun _ _ => pure (.call hcallee harguments)
  · rename_i hcond
    cases m with
    | none => exact pure (.var (hn.var first hfirst))
    | some member => simp at hcond

theorem referenceWith (hn : Naming V C table) (hw : w.externals = table) (h : Keeps (Ready w) (Expr.Formed V C w.depth) operand) :
    Keeps (Ready w) (Expr.Formed V C w.depth) (Grammar.referenceWith operand) :=
  (identifier _).bind fun _ hfirst => member.bind fun _ hm => namedWith hn hw h hfirst hm

/-- The value of a declaration is taken out of a well-formed chain, so it is well-formed. -/
theorem declared {name : String} {chained : Expr} (hname : V name) (hchained : chained.Formed V C w.depth) :
    Keeps (Ready w) (Expr.Formed V C w.depth) (Grammar.declared name chained) := by
  unfold Grammar.declared
  split
  · rename_i x value hsplit
    exact (note _).bind fun _ _ => pure (.declaration hname (hchained.splitAssignment hsplit).2)
  · exact invalidDeclaration _

/-- What stands behind `var` is a declaration of a name, with or without a value. -/
theorem declarationWith (hn : Naming V C table) (hw : w.externals = table) (h : Keeps (Ready w) (Expr.Formed V C w.depth) operand) :
    Keeps (Ready w) (Expr.Formed V C w.depth) (Grammar.declarationWith operand) := by
  refine advance.bind fun _ _ => (referenceWith hn hw h).bind fun target htarget => ?_
  split
  · cases htarget with
    | var hname => exact (operationsWith h 0 (.var hname)).bind fun chained hchained => declared hname hchained
  · exact invalidDeclaration _

/-- The branch behind `else`, if there is one, is well-formed. -/
theorem otherwiseWith (h : Keeps (Ready w) (Expr.Formed V C w.depth) operand) :
    Keeps (Ready w) (fun no => ∀ e ∈ no, e.Formed V C w.depth) (Grammar.otherwiseWith operand) := by
  refine current.bind fun t _ => ?_
  split
  · refine advance.bind fun _ _ => skipStatementEnds.bind fun _ _ => (expressionWith h).map fun e he => ?_
    intro e' heq
    cases heq
    exact he
  · exact pure (by simp)

/-- A condition has well-formed parts. -/
theorem conditionalWith (h : Keeps (Ready w) (Expr.Formed V C w.depth) operand) :
    Keeps (Ready w) (Expr.Formed V C w.depth) (Grammar.conditionalWith operand) :=
  advance.bind fun _ _ => (expectPunct _ _).bind fun _ _ => (expressionWith h).bind fun _ htest =>
    (expectPunct _ _).bind fun _ _ => skipStatementEnds.bind fun _ _ => (expressionWith h).bind fun _ hyes =>
      skipStatementEnds.bind fun _ _ => (otherwiseWith h).bind fun _ hno => (note _).bind fun _ _ => pure (.cond htest hyes hno)

/-- The statements of a block are well-formed inside as many blocks as are open there. -/
theorem statementsUpTo (h : Keeps (Ready w) (Expr.Formed V C w.depth) operand) (n : Nat) :
    Keeps (Ready w) (fun es => ∀ e ∈ es, e.Formed V C w.depth) (Grammar.statementsUpTo operand n) := by
  induction n with
  | zero => exact pure (by simp)
  | succ n ih =>
    refine skipStatementEnds.bind fun _ _ => current.bind fun t _ => ?_
    split
    · exact advance.bind fun _ _ => pure (by simp)
    · exact pure (by simp)
    · exact pure (by simp)
    · refine (expressionWith h).bind fun first hfirst => ih.bind fun rest hrest => pure ?_
      intro e he
      rcases List.mem_cons.mp he with rfl | he
      · exact hfirst
      · exact hrest e he

/-- A block is one deeper than what is around it. -/
theorem blockWith (h : Forming V C table operand) (hw : w.externals = table) :
    Keeps (Ready w) (fun e => e.Formed V C w.depth ∧ ∃ d es, e = .block d es) (Grammar.blockWith operand) := by
  have hinside := insideBlock (bounded (statementsUpTo (h { w with depth := w.depth + 1 } hw)))
  refine (expectPunct _ _).bind fun _ _ => get.bind fun s hs => hinside.bind fun statements hstatements => ?_
  rw [hs]
  exact pure ⟨.block hstatements, _, _, rfl⟩

/-- An operand is well-formed if the operands inside it are. -/
theorem primaryWith (hn : Naming V C table) (h : Forming V C table operand) : Forming V C table (Grammar.primaryWith operand) := by
  intro w hw
  have ho := h w hw
  refine current.bind fun t ht => ?_
  split
  · exact advance.bind fun _ _ => pure (.number ht)
  · exact referenceWith hn hw ho
  · exact advance.bind fun _ _ => (expressionWith ho).bind fun _ hvalue => pure (.ret hvalue)
  · exact declarationWith hn hw ho
  · exact conditionalWith ho
  · exact advance.bind fun _ _ => (expressionWith ho).bind fun _ hinner => (expectPunct _ _).bind fun _ _ => pure hinner
  · exact (blockWith h hw).mono fun _ hb => hb.1
  · exact unexpected _

/-- The circle is closed by induction on the bound. -/
theorem primaryUpTo (hn : Naming V C table) (n : Nat) : Forming V C table (Grammar.primaryUpTo n) := by
  induction n with
  | zero => exact fun _ _ => unexpected _
  | succ n ih => exact primaryWith hn ih

/-- An operand of the grammar is well-formed inside as many blocks as are open. -/
theorem primary (hn : Naming V C table) : Forming V C table Grammar.primary :=
  fun w hw => bounded fun n => primaryUpTo hn n w hw

end Keeps

/-! ## What a workspace holds -/

/-- A function that has been read: its name and parameters are names, and its body is a well-formed block. -/
structure Function.Formed (V C : String → Prop) (f : Function) : Prop where
  name : isName f.name = true
  params : ∀ param ∈ f.params, isName param = true
  body : f.body.Formed V C 0
  block : ∃ depth statements, f.body = .block depth statements

/-- A workspace between two sources. -/
structure Workspace.Formed (V C : String → Prop) (table : Externals) (w : Workspace) : Prop where
  externals : w.externals = table
  depth : w.depth = 0
  globals : ∀ f ∈ w.globals, f.prototype = w.globalPrototype ∧ f.body.Formed V C 0
  functions : ∀ f ∈ w.functions, f.Formed V C

/-- The workspaces that sources have been read into, one after the other, with a given table of external names. -/
inductive Workspace.Filled (table : Externals) : Workspace → Prop where
  | new (options : Options) : Filled table (.new table options)
  | read {w : Workspace} (source : String) : Filled table w → Filled table (w.read source).workspace
  | clear {w : Workspace} : Filled table w → Filled table w.clear

section

variable {V C : String → Prop} {table : Externals} {w : Workspace}

namespace Keeps

/-- A function is stored well-formed: its names are names, and its body is a block outside any other. -/
theorem function (hn : Naming V C table) (hw : w.Formed V C table) : Keeps (Ready w) (Function.Formed V C) Grammar.function := by
  have hprototype : Keeps (Ready w) (fun f => isName f.name = true ∧ ∀ param ∈ f.params, isName param = true)
      Grammar.prototype :=
    (identifier _).bind fun _ hname => (expectPunct _ _).bind fun _ _ =>
      (commaSeparated (identifier _)).bind fun _ hparams => pure ⟨hname, hparams⟩
  refine advance.bind fun _ _ => hprototype.bind fun f hf => skipStatementEnds.bind fun _ _ => current.bind fun t _ => ?_
  split
  · exact unexpected _
  · refine (blockWith (primary hn) hw.externals).bind fun body hbody => (note _).bind fun _ _ => pure ?_
    rw [hw.depth] at hbody
    exact ⟨hf.1, hf.2, hbody.1, hbody.2⟩

/-- An expression outside functions is kept under the global prototype, and stands in no block. -/
theorem topLevel (hn : Naming V C table) (hw : w.Formed V C table) :
    Keeps (Ready w) (fun f => f.prototype = w.globalPrototype ∧ f.body.Formed V C 0) Grammar.topLevel := by
  refine (expressionWith (primary hn w hw.externals)).bind fun body hbody => get.bind fun s hs => ?_
  rw [hs]
  rw [hw.depth] at hbody
  exact pure ⟨rfl, hbody⟩

end Keeps

namespace State

/-- Passing over a failed construct leaves the workspace and the spelling of what is to come. -/
theorem passUpTo_ready (n : Nat) : ∀ {s : State}, Ready w s → Ready w (passUpTo n s).1 := by
  induction n with
  | zero => exact fun hs => hs
  | succ n ih =>
    intro s hs
    rw [passUpTo]
    cases h : advance s with
    | ok _ t => exact (Keeps.advance.ok hs h).2
    | error d t =>
      have ht : Ready w (t.report d) := (Keeps.advance.error hs h).note _
      exact ih ht

/-- A construct that is stored leaves a well-formed workspace, and one that fails leaves the workspace as it was. -/
theorem construct_formed (hn : Naming V C table) (hw : w.Formed V C table) {s : State} (hs : Ready w s) :
    match s.construct with
    | .ok _ t => ∃ w', Workspace.Formed V C table w' ∧ Ready w' t
    | .error _ t => Ready w t := by
  rw [construct]
  by_cases hc : s.current = .keyword .function
  · rw [if_pos hc]
    cases h : Grammar.function s with
    | ok f t =>
      obtain ⟨hf, ht⟩ := (Keeps.function hn hw).ok hs h
      refine ⟨w.addFunction f, ⟨hw.externals, hw.depth, hw.globals, ?_⟩, ht.current, ht.items, by simp [ht.workspace]⟩
      intro g hg
      rcases List.mem_append.mp hg with hg | hg
      · exact hw.functions g hg
      · rw [List.mem_singleton.mp hg]
        exact hf
    | error d t => exact (Keeps.function hn hw).error hs h
  · rw [if_neg hc]
    cases h : Grammar.topLevel s with
    | ok f t =>
      obtain ⟨hf, ht⟩ := (Keeps.topLevel hn hw).ok hs h
      refine ⟨w.addGlobal f, ⟨hw.externals, hw.depth, ?_, hw.functions⟩, ht.current, ht.items, by simp [ht.workspace]⟩
      intro g hg
      rcases List.mem_append.mp hg with hg | hg
      · exact hw.globals g hg
      · rw [List.mem_singleton.mp hg]
        exact hf
    | error d t => exact (Keeps.topLevel hn hw).error hs h

/-- Every round of a script stores a well-formed construct or nothing. -/
theorem scriptUpTo_formed (hn : Naming V C table) (n : Nat) :
    ∀ {w : Workspace} {s : State}, w.Formed V C table → Ready w s →
      (scriptUpTo n s).1.workspace.Formed V C table := by
  induction n with
  | zero =>
    intro w s hw hs
    rw [scriptUpTo, hs.workspace]
    exact hw
  | succ n ih =>
    intro w s hw hs
    rw [scriptUpTo]
    split
    · rw [hs.workspace]
      exact hw
    · split
      · exact ih hw (passUpTo_ready _ hs)
      · have hc := construct_formed hn hw hs
        revert hc
        cases s.construct with
        | ok _ t =>
          rintro ⟨w', hw', ht⟩
          exact ih hw' ht
        | error d t =>
          intro ht
          exact ih hw (passUpTo_ready _ (ht.note _))

end State

/-- Reading keeps a workspace well-formed, whatever the source is. -/
theorem Workspace.Formed.read (hn : Naming V C table) (hw : w.Formed V C table) (source : String) :
    (w.read source).workspace.Formed V C table := by
  have hread : (w.read source).workspace = ((State.start source w).scriptUpTo (State.start source w).remaining).1.workspace := rfl
  rw [hread]
  exact State.scriptUpTo_formed hn _ hw (.start source w)

/-- A workspace that sources have been read into is well-formed. -/
theorem Workspace.Filled.formed (hn : Naming V C table) (h : w.Filled table) : w.Formed V C table := by
  induction h with
  | new options => exact ⟨rfl, rfl, by simp [Workspace.new], by simp [Workspace.new]⟩
  | read source _ ih => exact ih.read hn source
  | clear _ ih => exact ⟨ih.externals, rfl, by simp [Workspace.clear], by simp [Workspace.clear]⟩

end

end Offside
