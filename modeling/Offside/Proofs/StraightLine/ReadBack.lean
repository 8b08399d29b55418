import Offside.Compile
import Offside.Proofs.StraightLine.Reading

/-!
# Programs of straight-line code read back

A script of straight-line statements is written as one line for each of them. Reading these lines gives the same statements again,
with their chains of assignments folded to the left, and so the same program.
-/

namespace Offside

open Production Grammar

/-- The workspace with statements outside functions added to it. -/
def Workspace.addStatements (w : Workspace) (es : List Expr) : Workspace :=
  { w with globals := w.globals ++ es.map fun e => { prototype := w.globalPrototype, body := e } }

/-- Statements are stored one by one. -/
theorem Workspace.addStatements_cons (w : Workspace) (e : Expr) (es : List Expr) :
    (w.addGlobal { prototype := w.globalPrototype, body := e }).addStatements es = w.addStatements (e :: es) := by
  simp [addStatements, addGlobal, globalPrototype]

namespace State

variable {w : Workspace}

/-- Separators are passed over one by one. -/
theorem scriptUpTo_separators (n k : Nat) {s : State} {ts : List Token} (h : Views w s (List.replicate k .statementEnd ++ ts)) :
    ∃ t, scriptUpTo (n + k) s = scriptUpTo n t ∧ Views w t ts := by
  induction k generalizing s with
  | zero => exact ⟨s, rfl, h⟩
  | succ k ih =>
    obtain ⟨s₁, h₁, hs₁⟩ := scriptUpTo_separator h (n + k)
    obtain ⟨t, h₂, ht⟩ := ih hs₁
    exact ⟨t, h₁.trans h₂, ht⟩

/-- Straight-line statements are stored one by one, and nothing is wrong with them. -/
theorem scriptUpTo_statements {es : List Expr} (hes : ∀ e ∈ es, e.isStraightLine = true) :
    ∀ {n : Nat} {w : Workspace} {s : State}, w.externals = .empty → (Expr.statementsTokens es).length ≤ n →
      Views w s (Expr.statementsTokens es) →
      ∃ t, scriptUpTo n s = (t, []) ∧ t.workspace = w.addStatements (es.map Expr.refolded) := by
  induction es with
  | nil =>
    intro n w s _ _ h
    have hdone : scriptUpTo n s = (s, []) := by
      cases n with
      | zero => rfl
      | succ n => rw [scriptUpTo, if_pos h.sees.current_nil]
    exact ⟨s, hdone, by simp [h.workspace, Workspace.addStatements]⟩
  | cons e es ih =>
    intro n w s hw hn h
    have he := hes e List.mem_cons_self
    rw [Expr.statementsTokens] at hn h
    -- one round for the statement and one for the separator behind it
    obtain ⟨s₁, h₁, hs₁⟩ := Expr.statement_reads hw he (by rfl) h
    obtain ⟨token, ts, htokens, _⟩ := Expr.statementTokens_starts he
    rw [htokens, List.length_append, List.length_cons, List.length_cons] at hn
    obtain ⟨n, rfl⟩ : ∃ m, n = m + 1 + 1 := ⟨n - 2, by omega⟩
    have hround := scriptUpTo_expression h.sees h₁ (n + 1)
    rw [hs₁.workspace] at hround
    have hstored : Views (w.addGlobal { prototype := w.globalPrototype, body := e.refolded })
        { s₁ with workspace := w.addGlobal { prototype := w.globalPrototype, body := e.refolded } }
        (.statementEnd :: Expr.statementsTokens es) := ⟨hs₁.sees.congr rfl rfl, rfl⟩
    obtain ⟨s₂, h₂, hs₂⟩ := scriptUpTo_separator hstored n
    obtain ⟨t, h₃, ht⟩ := ih (fun o ho => hes o (List.mem_cons_of_mem e ho)) (n := n) (w := w.addGlobal _) hw (by omega) hs₂
    refine ⟨t, hround.trans (h₂.trans h₃), ?_⟩
    rw [ht, Workspace.addStatements_cons, List.map_cons]

end State

/-- A source that holds straight-line statements, with any number of separators before them, is read as these statements. -/
theorem Workspace.read_statements {w : Workspace} (hw : w.externals = .empty) {es : List Expr}
    (hes : ∀ e ∈ es, e.isStraightLine = true) {source : String} {k : Nat}
    (hsource : Scans source.toList ((List.replicate k Token.statementEnd ++ Expr.statementsTokens es).map .token)) :
    (w.read source).diagnostics = [] ∧ (w.read source).workspace = w.addStatements (es.map Expr.refolded) := by
  have hview : Views w (State.start source w) (List.replicate (k + 1) .statementEnd ++ Expr.statementsTokens es) :=
    ⟨Sees.start w hsource.ofSource, rfl⟩
  obtain ⟨s, h₁, hs⟩ := State.scriptUpTo_separators (Expr.statementsTokens es).length (k + 1) hview
  obtain ⟨t, h₂, ht⟩ := State.scriptUpTo_statements hes hw (Nat.le_refl _) hs
  have hscript : (State.start source w).script = (t, []) := by
    rw [State.script, hview.sees.remaining, List.length_append, List.length_replicate, Nat.add_comm (k + 1), h₁, h₂]
  unfold Workspace.read
  rw [hscript]
  exact ⟨rfl, ht⟩

/-! ## What is written -/

/-- A straight-line statement is written on a line of its own. -/
theorem Expr.renderStatement_toList {e : Expr} (h : e.isStraightLine = true) :
    (e.renderStatement {}).toList = statementsText [e] := by
  rw [renderStatement, lines_of_isStraightLine h]
  simp [Line.renderAll, Line.render, statementsText]

/-- Statements have the same text when their chains of assignments are refolded. -/
theorem Expr.statementsText_refolded (es : List Expr) : statementsText (es.map refolded) = statementsText es := by
  induction es with
  | nil => rfl
  | cons e es ih => rw [List.map_cons, statementsText, statementText_refolded, ih, statementsText]

/-- The lines of straight-line statements are their text. -/
theorem Line.renderAll_straightLine (fs : List Function) (h : ∀ e ∈ fs.map Function.body, e.isStraightLine = true) :
    (Line.renderAll {} (fs.flatMap fun f => f.body.lines {} .statement 0)).toList =
      Expr.statementsText (fs.map Function.body) := by
  induction fs with
  | nil => rfl
  | cons f fs ih =>
    rw [List.map_cons] at h
    have hrest := ih fun e he => h e (List.mem_cons_of_mem _ he)
    rw [List.flatMap_cons, Expr.lines_of_isStraightLine (h f.body List.mem_cons_self), List.map_cons, Expr.statementsText,
      ← hrest]
    simp [renderAll, render]

namespace Workspace

/-- The workspace holds the given straight-line statements and nothing else. -/
structure Holds (w : Workspace) (es : List Expr) : Prop where
  bodies : w.globals.map Function.body = es
  functions : w.functions = []
  straight : ∀ e ∈ es, e.isStraightLine = true

/-- Straight-line statements are written as their lines and an empty one. -/
theorem Holds.render_toList {w : Workspace} {es : List Expr} (h : w.Holds es) :
    (w.render {}).toList = Expr.statementsText es ++ ['\n'] := by
  have hglobals := Line.renderAll_straightLine w.globals (h.bodies ▸ h.straight)
  rw [render, functionLines, h.functions, List.flatMap_nil, globalLines, ← h.bodies, ← hglobals]
  simp [Line.renderAll, Line.render, Line.empty]

/-- What is written for straight-line statements is read as these statements, also if there are none. -/
theorem Holds.read_render {w v : Workspace} {es : List Expr} (h : w.Holds es) (hv : v.externals = .empty) :
    (v.read (w.render {})).diagnostics = [] ∧ (v.read (w.render {})).workspace = v.addStatements (es.map Expr.refolded) := by
  have htext := h.render_toList
  by_cases hnil : es = []
  · have hscans : Scans ['\n'] ((List.replicate 1 Token.statementEnd ++ Expr.statementsTokens []).map .token) :=
      Scans.separators '\n' [] (by decide) (fun d hd => by cases hd) .nil
    subst hnil
    exact read_statements hv h.straight (k := 1) (by rw [htext]; exact hscans)
  · have hscans := Expr.scans_statements h.straight hnil ['\n'] (by decide)
    exact read_statements hv h.straight (k := 0) (by rw [htext]; exact hscans)

/-- A workspace that was empty holds exactly the statements that are stored. -/
theorem holds_addStatements {v : Workspace} {es : List Expr} (hglobals : v.globals = []) (hfunctions : v.functions = [])
    (h : ∀ e ∈ es, e.isStraightLine = true) : (v.addStatements es).Holds es where
  bodies := by simp [addStatements, hglobals, Function.comp_def]
  functions := hfunctions
  straight := h

/-- Reading what was written for straight-line statements leads to the same text again. -/
theorem Holds.render_read {w v : Workspace} {es : List Expr} (h : w.Holds es) (hv : v.externals = .empty)
    (hglobals : v.globals = []) (hfunctions : v.functions = []) : (v.read (w.render {})).workspace.render {} = w.render {} := by
  have hrefolded : ∀ e ∈ es.map Expr.refolded, e.isStraightLine = true := by
    rw [List.forall_mem_map]
    exact fun e he => Expr.isStraightLine_refolded (h.straight e he)
  apply String.toList_inj.mp
  rw [(h.read_render hv).2, (holds_addStatements hglobals hfunctions hrefolded).render_toList, Expr.statementsText_refolded,
    h.render_toList]

end Workspace

/-- The code of a source is the text of the workspace it is read into. -/
theorem compile_code (source : String) : (compile source).code = ((Workspace.new .empty {}).read source).workspace.render {} := by
  rw [compile, Workspace.compile]

/-- A source is clean exactly if nothing is reported about it. -/
theorem compile_clean_iff (source : String) :
    (compile source).clean = true ↔ ((Workspace.new .empty {}).read source).diagnostics = [] := by
  rw [compile, Workspace.compile, Compiled.clean, List.isEmpty_iff]

/-- Straight-line code reads back. The line of a statement is read without a diagnostic as one statement: the same, with its chain of
assignments folded to the left and nothing marked as a declaration. And the program for a source that holds such statements only is
compiled to itself, without a diagnostic. -/
theorem straightLine_reads_back :
    (∀ e : Expr, e.isStraightLine = true →
      ((Workspace.new .empty {}).read (e.renderStatement {})).diagnostics = [] ∧
      ((Workspace.new .empty {}).read (e.renderStatement {})).workspace.functions = [] ∧
      ((Workspace.new .empty {}).read (e.renderStatement {})).workspace.globals =
        [{ prototype := (Workspace.new .empty {}).globalPrototype, body := e.refolded }]) ∧
    ∀ source : String, (compile source).clean = true →
      ((Workspace.new .empty {}).read source).workspace.functions = [] →
      (∀ f ∈ ((Workspace.new .empty {}).read source).workspace.globals, f.body.isStraightLine = true) →
      (compile (compile source).code).clean = true ∧ (compile (compile source).code).code = (compile source).code := by
  constructor
  · intro e he
    have hes : ∀ o ∈ [e], o.isStraightLine = true := by simpa using he
    have hscans := Expr.scans_statements hes (by simp) [] (by simp)
    rw [List.append_nil, ← Expr.renderStatement_toList he] at hscans
    obtain ⟨hclean, hworkspace⟩ := Workspace.read_statements (w := .new .empty {}) rfl hes (k := 0) hscans
    rw [hworkspace]
    exact ⟨hclean, rfl, rfl⟩
  · intro source _ hfunctions hglobals
    have hholds : ((Workspace.new .empty {}).read source).workspace.Holds _ := ⟨rfl, hfunctions, by simpa using hglobals⟩
    rw [compile_clean_iff, compile_code, compile_code]
    exact ⟨(hholds.read_render rfl).1, hholds.render_read rfl rfl rfl⟩

/-- The declaration of a chain that ends in a call, and a script with such a line. -/
theorem straightLine_reads_back_chain :
    ((Expr.declaration "a" (.operation (.var "b") '=' (.call "f.g" [.number ⟨0x4004000000000000⟩]))).isStraightLine = true ∧
      ((Workspace.new .empty {}).read ((Expr.declaration "a"
        (.operation (.var "b") '=' (.call "f.g" [.number ⟨0x4004000000000000⟩]))).renderStatement {})).workspace.globals =
        [{ prototype := (Workspace.new .empty {}).globalPrototype,
           body := .operation (.operation (.var "a") '=' (.var "b")) '=' (.call "f.g" [.number ⟨0x4004000000000000⟩]) }]) ∧
    (compile "var a = b = f.g(2.5);c = a < b").clean = true ∧
      (compile (compile "var a = b = f.g(2.5);c = a < b").code).code = (compile "var a = b = f.g(2.5);c = a < b").code := by
  refine ⟨⟨by decide +kernel, ?_⟩, by decide +kernel, ?_⟩
  · exact (straightLine_reads_back.1 _ (by decide +kernel)).2.2
  · exact (straightLine_reads_back.2 "var a = b = f.g(2.5);c = a < b" (by decide +kernel) (by decide +kernel)
      (by decide +kernel)).2

end Offside
