import Offside.Proofs.Formed
import Offside.Proofs.Grammar.Invariant
import Offside.Proofs.Grammar.Reading
import Offside.Proofs.Grammar.Rounds
import Offside.Proofs.Token.Written

/-!
# What can be read

The expressions that sources are read as are exactly the well-formed ones. That only well-formed expressions are stored is an invariant
of reading, with whatever errors. For the converse every well-formed expression is written out, with parentheses around all that is
neither a name nor a number nor a call nor a block, and what is written is read as that expression.
-/

namespace Offside

open Production Grammar

/-- A well-formed expression outside functions: its names are names of the language. -/
def Expr.WellFormed (e : Expr) : Prop := e.Formed (isName · = true) (isCallee · = true) 0

/-! ## What is stored -/

/-- Without external names every name stands for itself. -/
theorem naming_empty : Naming (isName · = true) (isCallee · = true) .empty where
  var _ hname := hname
  callee _ hname := isCallee_iff.mpr (.inl hname)
  member name member hname hmember := isCallee_iff.mpr (.inr ⟨name, member, hname, hmember, rfl⟩)

namespace Workspace

/-- What is done with a workspace: a source is read into it, or what has been read is forgotten. -/
inductive Call where
  | read (source : String)
  | clear

/-- The workspace behind a row of calls. -/
def after (w : Workspace) : List Call → Workspace
  | [] => w
  | .read source :: calls => (w.read source).workspace.after calls
  | .clear :: calls => w.clear.after calls

variable {w : Workspace}

/-- Whatever is read or forgotten, a workspace holds only what reading makes. -/
theorem Filled.after {table : Externals} (h : w.Filled table) (calls : List Call) : (w.after calls).Filled table := by
  induction calls generalizing w with
  | nil => exact h
  | cons call calls ih =>
    cases call with
    | read source => exact ih (h.read source)
    | clear => exact ih h.clear

/-- The prototype of expressions outside functions is the same behind all calls. -/
theorem globalPrototype_after (calls : List Call) : (w.after calls).globalPrototype = w.globalPrototype := by
  induction calls generalizing w with
  | nil => rfl
  | cons call calls ih =>
    cases call with
    | read source =>
      obtain ⟨gs, fs, hread⟩ := (State.start source w).script_extends (.start source w)
      rw [Workspace.after, ih, (w.read_eq_script source).1, hread]
      rfl
    | clear => exact ih

end Workspace

/-! ## What is written -/

namespace Expr

mutual

/-- The tokens of an expression, as an operand. -/
def operandTokens : Expr → List Token
  | number value => [.number value]
  | var name => [.identifier name]
  | binary left op right declares =>
    .punct '(' :: ((if declares then [.keyword .var] else []) ++ (left.operandTokens ++ .punct op :: right.operandTokens) ++
      [.punct ')'])
  | ret value => .punct '(' :: (.keyword .return_ :: value.operandTokens ++ [.punct ')'])
  | call callee arguments => calleeTokens callee ++ .punct '(' :: (Token.joined ',' (operandTokensAll arguments) ++ [.punct ')'])
  | cond test yes none =>
    .punct '(' :: (.keyword .if_ :: .punct '(' :: (test.operandTokens ++ .punct ')' :: yes.operandTokens) ++ [.punct ')'])
  | cond test yes (some no) =>
    .punct '(' :: (.keyword .if_ :: .punct '(' :: (test.operandTokens ++ .punct ')' ::
      (yes.operandTokens ++ .keyword .else_ :: no.operandTokens)) ++ [.punct ')'])
  | block _ statements => .punct '{' :: ((operandTokensAll statements).flatMap (.statementEnd :: ·) ++ [.punct '}'])

/-- The tokens of several expressions. -/
def operandTokensAll : List Expr → List (List Token)
  | [] => []
  | e :: es => e.operandTokens :: operandTokensAll es

end

theorem operandTokensAll_eq_map (es : List Expr) : operandTokensAll es = es.map operandTokens := by
  induction es with
  | nil => rfl
  | cons e es ih => rw [operandTokensAll, ih, List.map_cons]

/-- The tokens of a condition, with or without another branch. -/
theorem operandTokens_cond (test yes : Expr) (no : Option Expr) :
    (cond test yes no).operandTokens =
      .punct '(' :: (.keyword .if_ :: .punct '(' :: (test.operandTokens ++ .punct ')' ::
        (yes.operandTokens ++ otherwiseTokens operandTokens no)) ++ [.punct ')']) := by
  cases no with
  | none => simp [operandTokens, otherwiseTokens]
  | some no => rfl

/-- The tokens of a block are those of its statements in braces. -/
theorem operandTokens_block (depth : Nat) (statements : List Expr) :
    (block depth statements).operandTokens = .punct '{' :: (blockTokens operandTokens statements ++ [.punct '}']) := by
  rw [operandTokens, operandTokensAll_eq_map, List.flatMap_map]
  rfl

variable {w : Workspace} {d : Nat}

/-- The tokens of a well-formed expression are read as that expression, inside as many blocks as it is formed for. -/
theorem Formed.reads {e : Expr} (h : e.Formed (isName · = true) (isCallee · = true) d) (hw : w.externals = .empty)
    (hd : w.depth = d) : ReadsOperand w e.operandTokens e := by
  induction h generalizing w with
  | number => exact readsOperand_number _
  | var => exact readsOperand_var hw _
  | @binary d left right op declares hop hdeclares _ _ hl hr =>
    cases declares with
    | false => exact ((hl hw hd).operation hop (hr hw hd)).grouping
    | true =>
      obtain ⟨rfl, name, rfl⟩ := hdeclares rfl
      exact ((hr hw hd).declaration hw name).grouping
  | ret _ ih => exact (ih hw hd).ret.grouping
  | @call d callee arguments hcallee _ ih =>
    have hcall : ReadsOperand w _ (.call callee (arguments.map id)) := readsOperand_call hw hcallee fun e he => ih e he hw hd
    rw [operandTokens, operandTokensAll_eq_map]
    rwa [List.map_id] at hcall
  | @cond d test yes no _ _ _ htest hyes hno =>
    have hcond : ReadsEnclosed w _ (.cond test yes (no.map id)) :=
      (htest hw hd).conditional (hyes hw hd) fun e he => hno e he hw hd
    rw [Option.map_id] at hcond
    rw [operandTokens_cond]
    exact hcond.grouping
  | @block d statements _ ih =>
    have hblock : ReadsOperand w _ (.block (w.depth + 1) (statements.map id)) :=
      readsOperand_block fun e he => ih e he hw (congrArg (· + 1) hd)
    rw [operandTokens_block]
    rwa [List.map_id, hd] at hblock

/-- Every operator is a mark of the language. -/
theorem isMark_operator : ∀ c ∈ operatorSymbols, Lexeme.isMark c = true := by
  decide

/-- The parts of a dotted name can be written. -/
theorem isWritable_callee {callee : String} (h : isCallee callee = true) : ∀ t ∈ calleeTokens callee, t.isWritable = true := by
  rcases isCallee_iff.mp h with hname | ⟨first, member, hfirst, hmember, rfl⟩
  · simpa [calleeTokens_name hname] using hname
  · have hpoint : Lexeme.isMark '.' = true := by decide
    simp [calleeTokens_member hfirst, hfirst, hmember, hpoint]

/-- The tokens of a well-formed expression can be written. -/
theorem Formed.isWritable {e : Expr} (h : e.Formed (isName · = true) (isCallee · = true) d) :
    ∀ t ∈ e.operandTokens, t.isWritable = true := by
  have hopen : Lexeme.isMark '(' = true := by decide
  have hclose : Lexeme.isMark ')' = true := by decide
  induction h with
  | number hvalue => simpa [operandTokens] using hvalue
  | var hname => simpa [operandTokens] using hname
  | @binary d left right op declares hop _ _ _ hl hr =>
    have hmark := isMark_operator op hop
    cases declares <;> simpa [operandTokens, or_imp, forall_and, hopen, hclose, hmark] using ⟨hl, hr⟩
  | ret _ ih => simpa [operandTokens, or_imp, forall_and, hopen, hclose] using ih
  | @call d callee arguments hcallee _ ih =>
    have hcomma : (Token.punct ',').isWritable = true := by decide
    have hjoined := Token.forall_mem_joined hcomma (List.forall_mem_map.mpr ih)
    have hname := isWritable_callee hcallee
    simpa [operandTokens, operandTokensAll_eq_map, or_imp, forall_and, hopen, hclose] using ⟨hname, hjoined⟩
  | @cond d test yes no _ _ _ htest hyes hno =>
    have hotherwise : ∀ t ∈ otherwiseTokens operandTokens no, t.isWritable = true := by
      cases no with
      | none => simp [otherwiseTokens]
      | some no => simpa [otherwiseTokens] using hno no rfl
    simpa [operandTokens_cond, or_imp, forall_and, hopen, hclose] using ⟨htest, hyes, hotherwise⟩
  | @block d statements _ ih =>
    have hbraces : Lexeme.isMark '{' = true ∧ Lexeme.isMark '}' = true := by decide
    have hstatements : ∀ t ∈ blockTokens operandTokens statements, t.isWritable = true := by
      intro t ht
      obtain ⟨e, he, ht⟩ := List.mem_flatMap.mp ht
      rcases List.mem_cons.mp ht with rfl | ht
      · rfl
      · exact ih e he t ht
    simpa [operandTokens_block, or_imp, forall_and, hbraces] using hstatements

end Expr

namespace Workspace

/-- A source is written for tokens that are read as an operand, and it is read as that operand. -/
theorem read_written {w : Workspace} {ts : List Token} {e : Expr} (h : ReadsOperand w ts e) (hts : ∀ t ∈ ts, t.isWritable = true) :
    (w.read (Token.written ts)).diagnostics = [] ∧
      (w.read (Token.written ts)).workspace = w.addGlobal { prototype := w.globalPrototype, body := e } := by
  refine Workspace.read_expression (Token.scans_written hts).ofSource fun s hs => h.expression rfl ?_
  rwa [List.append_nil]

/-- Exactly the well-formed expressions are read. Whatever is read and forgotten, every expression outside functions is well-formed and
has the same prototype, without parameters, and the body of every function is a well-formed block; and every well-formed expression is
what some source without errors is read as. -/
theorem stored_iff_wellFormed (options : Options) :
    (∀ calls : List Call,
      (∀ f ∈ ((new .empty options).after calls).globals, f.prototype = ⟨options.globalName, []⟩ ∧ f.body.WellFormed) ∧
      ∀ f ∈ ((new .empty options).after calls).functions, f.body.WellFormed ∧ ∃ depth statements, f.body = .block depth statements) ∧
    ∀ e : Expr, e.WellFormed ↔ ∃ source,
      ((new .empty options).read source).diagnostics = [] ∧ ((new .empty options).read source).workspace.functions = [] ∧
        ((new .empty options).read source).workspace.globals = [⟨⟨options.globalName, []⟩, e⟩] := by
  have hstored : ∀ calls : List Call, ((new .empty options).after calls).Formed (isName · = true) (isCallee · = true) .empty :=
    fun calls => ((Filled.new options).after calls).formed naming_empty
  refine ⟨fun calls => ⟨fun f hf => ?_, fun f hf => ?_⟩, fun e => ⟨fun he => ?_, ?_⟩⟩
  · obtain ⟨hprototype, hbody⟩ := (hstored calls).globals f hf
    rw [globalPrototype_after] at hprototype
    exact ⟨hprototype, hbody⟩
  · have hf := (hstored calls).functions f hf
    exact ⟨hf.body, hf.block⟩
  · obtain ⟨hdiagnostics, hworkspace⟩ := read_written (he.reads (w := new .empty options) rfl rfl) he.isWritable
    exact ⟨_, hdiagnostics, by rw [hworkspace]; rfl, by rw [hworkspace]; rfl⟩
  · rintro ⟨source, _, _, hglobals⟩
    have hread := (hstored [.read source]).globals ⟨⟨options.globalName, []⟩, e⟩
    exact (hread (by rw [after, after, hglobals]; exact List.mem_cons_self)).2

/-- A function between two errors, behind a call that forgets; and a tree with a condition on the left of an operator and a declaration
on the right. -/
theorem stored_iff_wellFormed_nested :
    let calls : List Call :=
      [.read "f(x) = 1", .clear, .read "var a; function f(x) { if (x) { return 2.5 } }; b = c.d(3"]
    let e : Expr := .operation (.cond (.var "a") (.block 1 [.ret (.number ⟨0x4004000000000000⟩)]) none) '-'
      (.declaration "b" (.call "f.g" [.operation (.var "c") '=' (.var "d")]))
    (∃ f ∈ ((new .empty {}).after calls).functions, f.body.WellFormed ∧ ∃ depth statements, f.body = .block depth statements) ∧
      e.WellFormed ∧ ∃ source, ((new .empty {}).read source).diagnostics = [] ∧
        ((new .empty {}).read source).workspace.functions = [] ∧
        ((new .empty {}).read source).workspace.globals = [⟨⟨"__global", []⟩, e⟩] := by
  intro calls e
  have hlength : 0 < ((new .empty {}).after calls).functions.length := by decide +kernel
  obtain ⟨f, hf⟩ := List.exists_mem_of_length_pos hlength
  have hblock : (Expr.block 1 [.ret (.number ⟨0x4004000000000000⟩)]).WellFormed :=
    .block (by simpa using .ret (.number (by decide)))
  have hcall : (Expr.call "f.g" [.operation (.var "c") '=' (.var "d")]).WellFormed :=
    .call (by decide) (by simpa using .operation (by decide) (.var (by decide)) (.var (by decide)))
  have he : e.WellFormed := .operation (by decide) (.cond (.var (by decide)) hblock (by simp)) (.declaration (by decide) hcall)
  exact ⟨⟨f, hf, ((stored_iff_wellFormed {}).1 calls).2 f hf⟩, he, ((stored_iff_wellFormed {}).2 e).mp he⟩

end Workspace

end Offside
