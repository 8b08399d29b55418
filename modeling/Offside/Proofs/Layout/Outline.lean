import Offside.Layout.Statement
import Offside.Proofs.Formed
import Offside.Proofs.Layout.Reader

/-!
# The statements of an expression

The tree of statements that an expression stands for, said without levels, and the reading of its lines: wherever the lines of an
expression begin, the indentation rule finds this tree in them, because every suite lies deeper than its header and everything
behind a suite does not.
-/

namespace Offside

namespace Expr

open Suite (Statement)

mutual

/-- The statements that an expression stands for. A block among statements is replaced by its statements, and an empty one by `pass`. -/
def outline (options : Options) : Expr → List Statement
  | cond test yes no => [.suite ("if " ++ test.inline ++ ":") (yes.outline options) (clause? options no)]
  | block _ statements =>
    match statements with
    | [] => [.line "pass"]
    | first :: rest => first.outline options ++ outlineAll options rest
  | e => [.line (e.statementText options)]

/-- The statements that several expressions stand for. -/
def outlineAll (options : Options) : List Expr → List Statement
  | [] => []
  | e :: es => e.outline options ++ outlineAll options es

/-- The clause for the other branch of a condition. A condition there continues the one before it. -/
def clause? (options : Options) : Option Expr → Option Statement
  | none => none
  | some no =>
    match no with
    | cond test yes no => some (.suite ("elif " ++ test.inline ++ ":") (yes.outline options) (clause? options no))
    | e => some (.suite "else:" (e.outline options) none)

end

end Expr

/-- The header of a function. -/
def Function.header (f : Function) : String := "def " ++ f.name ++ "(" ++ ", ".intercalate f.params ++ "):"

/-- The statement of a function: a definition with the body as its suite. -/
def Function.outline (options : Options) (f : Function) : Suite.Statement :=
  .suite f.header (f.body.outline options) none

/-- The statements of a workspace: those of the expressions outside functions, and the functions. -/
def Workspace.outline (options : Options) (w : Workspace) : List Suite.Statement :=
  (w.globals.flatMap fun f => f.body.outline options) ++ w.functions.map (Function.outline options)

namespace Suite

/-! ## Steps of the indentation rule -/

/-- The rows begin no deeper than a column. -/
def Returns (column : Nat) (rows : List Row) : Prop := ∀ row ∈ rows.head?, row.column ≤ column

variable {columns : List Nat} {column : Nat} {row : Row} {rows : List Row}

/-- A row at the innermost column is a line. -/
theorem marks_line (h : columns.headD 0 = row.column) :
    marks columns (row :: rows) = (marks columns rows).map (.line row.text :: ·) := by
  have hle : ¬columns.headD 0 < row.column := by omega
  have hclosed : columns.takeWhile (row.column < ·) = [] ∧ columns.dropWhile (row.column < ·) = columns := by
    cases columns with
    | nil => exact ⟨rfl, rfl⟩
    | cons c cs =>
      have hc : c = row.column := h
      simp [hc]
  rw [marks, if_neg hle, hclosed.1, hclosed.2]
  simp [← h]

/-- A deeper row opens a suite. -/
theorem marks_enter (h : columns.headD 0 < row.column) :
    marks columns (row :: rows) = (marks (row.column :: columns) (row :: rows)).map (.indent :: ·) := by
  have hline : marks (row.column :: columns) (row :: rows) = (marks (row.column :: columns) rows).map (.line row.text :: ·) :=
    marks_line rfl
  rw [hline, marks, if_pos h, Option.map_map]
  rfl

/-- In front of rows that are not deep enough for it, a suite is closed. -/
theorem marks_leave (h : columns.headD 0 < column) (hr : Returns (columns.headD 0) rows) :
    marks (column :: columns) rows = (marks columns rows).map (.dedent :: ·) := by
  cases rows with
  | nil => rfl
  | cons row rows =>
    have hrow : row.column ≤ columns.headD 0 := hr row rfl
    have hlt : row.column < column := by omega
    have hle : ¬column < row.column := by omega
    have hle' : ¬columns.headD 0 < row.column := by omega
    simp only [marks, List.headD_cons, if_neg hle, if_neg hle', List.takeWhile_cons, List.dropWhile_cons, hlt, decide_true, if_true]
    split
    · simp [Option.map_map, Function.comp_def, List.replicate_succ]
    · rfl

/-! ## Reading lines -/

/-- The row of a line of the output. -/
def rowOf (options : Options) (l : Line) : Row := { column := options.indentWidth * l.level, text := l.text }

/-- Wherever the lines stand, with their level the innermost column and nothing deeper behind them, they are read as the statements. -/
structure Reads (options : Options) (level : Nat) (lines : List Line) (statements : List Statement) : Prop where
  begins : ∃ text rest, lines = { level, text } :: rest
  marks_eq : ∀ {columns rows}, columns.headD 0 = options.indentWidth * level → Returns (options.indentWidth * level) rows →
    marks columns (lines.map (rowOf options) ++ rows) = (marks columns rows).map (Statement.toMarksAll statements ++ ·)

namespace Reads

variable {options : Options} {level own : Nat} {lines body next : List Line} {statements inner : List Statement}

/-- Lines begin at their level, so they may stand behind a suite at that level. -/
theorem returns (h : Reads options level lines statements) (rows : List Row) :
    Returns (options.indentWidth * level) (lines.map (rowOf options) ++ rows) := by
  obtain ⟨text, rest, rfl⟩ := h.begins
  intro row hrow
  cases hrow
  exact Nat.le_refl _

/-- A line is read as a statement on one line. -/
theorem line (options : Options) (level : Nat) (text : String) : Reads options level [{ level, text }] [.line text] where
  begins := ⟨text, [], rfl⟩
  marks_eq := by
    intro columns rows hc _
    exact marks_line hc

/-- Lines of one level one after another are read as their statements one after another. -/
theorem append {lines' : List Line} {statements' : List Statement} (h : Reads options level lines statements)
    (h' : Reads options level lines' statements') : Reads options level (lines ++ lines') (statements ++ statements') where
  begins := by
    obtain ⟨text, rest, rfl⟩ := h.begins
    exact ⟨text, rest ++ lines', rfl⟩
  marks_eq := by
    intro columns rows hc hr
    rw [List.map_append, List.append_assoc, h.marks_eq hc (h'.returns rows), h'.marks_eq hc hr, Option.map_map]
    simp [Function.comp_def]

/-- A header with deeper lines below it is read with these lines as its suite. -/
theorem marks_header (hw : 0 < options.indentWidth) (h : Reads options own body inner) (hlt : level < own) (header : String)
    {columns : List Nat} {rows : List Row} (hc : columns.headD 0 = options.indentWidth * level)
    (hr : Returns (options.indentWidth * level) rows) :
    marks columns (({ level, text := header } :: body).map (rowOf options) ++ rows) =
      (marks columns rows).map fun ms => .line header :: .indent :: (Statement.toMarksAll inner ++ .dedent :: ms) := by
  have hdeeper : columns.headD 0 < options.indentWidth * own := by
    rw [hc]
    exact Nat.mul_lt_mul_of_pos_left hlt hw
  -- the first line of the suite opens its column, the lines are read there, and what is behind closes it
  have henter : marks columns (body.map (rowOf options) ++ rows) =
      (marks (options.indentWidth * own :: columns) (body.map (rowOf options) ++ rows)).map (.indent :: ·) := by
    obtain ⟨text, rest, rfl⟩ := h.begins
    exact marks_enter hdeeper
  have hreturns : Returns (options.indentWidth * own) rows := by
    intro row hrow
    have := hr row hrow
    omega
  have hline : marks columns (rowOf options { level, text := header } :: (body.map (rowOf options) ++ rows)) =
      (marks columns (body.map (rowOf options) ++ rows)).map (.line header :: ·) := marks_line hc
  rw [List.map_cons, List.cons_append, hline, henter, h.marks_eq rfl hreturns, marks_leave hdeeper (hc ▸ hr)]
  simp [Option.map_map, Function.comp_def]

/-- Lines of a deeper level are read as the suite of the header in front of them. -/
theorem suite (hw : 0 < options.indentWidth) (h : Reads options own body inner) (hlt : level < own) (header : String) :
    Reads options level ({ level, text := header } :: body) [.suite header inner none] where
  begins := ⟨header, body, rfl⟩
  marks_eq := by
    intro columns rows hc hr
    rw [h.marks_header hw hlt header hc hr]
    simp [Statement.toMarksAll, Statement.toMarks, Statement.toMarksOption]

/-- Lines behind a suite that are read as a clause continue it. -/
theorem suite_clause (hw : 0 < options.indentWidth) (h : Reads options own body inner) (hlt : level < own) (header : String)
    {clause : Statement} (hn : Reads options level next [clause]) :
    Reads options level ({ level, text := header } :: (body ++ next)) [.suite header inner (some clause)] where
  begins := ⟨header, body ++ next, rfl⟩
  marks_eq := by
    intro columns rows hc hr
    have hheader := h.marks_header hw hlt header hc (hn.returns rows)
    rw [hn.marks_eq hc hr] at hheader
    rw [← List.cons_append, List.map_append, List.append_assoc, hheader]
    simp [Statement.toMarksAll, Statement.toMarks, Statement.toMarksOption, Option.map_map, Function.comp_def]

end Reads

end Suite

namespace Expr

open Suite (Reads)

variable {options : Options}

/-- The lines of a condition are its header, those of its branch, and those of the other branch. -/
theorem lines_cond (options : Options) (slot : Slot) (level : Nat) (test yes : Expr) (no : Option Expr) :
    (cond test yes no).lines options slot level =
      { level := slot.conditionLevel level, text := slot.conditionWord ++ test.inline ++ ":" } ::
        (yes.lines options .body (slot.conditionLevel level) ++
          no.elim [] fun no => no.lines options .otherwise (slot.conditionLevel level)) := by
  cases no <;> rfl

/-- The lines of a block are those of its statements, or a filler where there are none. -/
theorem lines_block (options : Options) (slot : Slot) (level depth : Nat) (statements : List Expr) :
    (block depth statements).lines options slot level = slot.header level ++
      if statements = [] then [{ level := slot.blockLevel level depth, text := "pass" }]
      else linesAll options (slot.blockLevel level depth) statements := by
  cases statements <;> rfl

/-- The statements of a block are those written in it, or a filler where there are none. -/
theorem outline_block (options : Options) (depth : Nat) (statements : List Expr) :
    (block depth statements).outline options = if statements = [] then [.line "pass"] else outlineAll options statements := by
  cases statements <;> rfl

/-- Below a header an expression is written like a statement, at a deeper level. -/
theorem lines_body (options : Options) (e : Expr) (level : Nat) :
    ∃ own, level < own ∧ e.lines options .body level = e.lines options .statement own := by
  cases e with
  | block depth statements =>
    refine ⟨max depth (level + 1), by omega, ?_⟩
    rw [lines_block, lines_block]
    rfl
  | cond test yes no =>
    refine ⟨level + 1, by omega, ?_⟩
    rw [lines_cond, lines_cond]
    rfl
  | _ => exact ⟨level + 1, by omega, rfl⟩

/-- What is no condition is written below `else` like below any other header. -/
theorem lines_otherwise {e : Expr} (h : ∀ test yes no, e ≠ .cond test yes no) (level : Nat) :
    e.lines options .otherwise level = { level, text := "else:" } :: e.lines options .body level := by
  cases e with
  | cond test yes no => exact absurd rfl (h test yes no)
  | block depth statements =>
    rw [lines_block, lines_block]
    rfl
  | _ => rfl

/-- Another branch that is no condition makes a clause of its own. -/
theorem clause?_of_not_cond {e : Expr} (h : ∀ test yes no, e ≠ .cond test yes no) :
    clause? options (some e) = some (.suite "else:" (e.outline options) none) := by
  cases e with
  | cond test yes no => exact absurd rfl (h test yes no)
  | _ => rfl

/-- Statements at one level are read one after the other. -/
theorem reads_linesAll {statements : List Expr} (level : Nat)
    (h : ∀ e ∈ statements, Reads options level (e.lines options .statement level) (e.outline options)) (hne : statements ≠ []) :
    Reads options level (linesAll options level statements) (outlineAll options statements) := by
  induction statements with
  | nil => exact absurd rfl hne
  | cons first rest ih =>
    have hfirst := h first List.mem_cons_self
    cases rest with
    | nil => simpa [linesAll, outlineAll] using hfirst
    | cons second rest =>
      have hrest := ih (fun e he => h e (List.mem_cons_of_mem _ he)) (by simp)
      rw [linesAll, outlineAll]
      exact hfirst.append hrest

/-- A condition is read with its suite and, if there is one, the clause for its other branch. -/
theorem reads_condition (hw : 0 < options.indentWidth) {test yes : Expr} {no : Option Expr} (level : Nat) (word : String)
    (hyes : ∀ level, Reads options level (yes.lines options .statement level) (yes.outline options))
    (hno : ∀ e ∈ no, ∃ clause, clause? options (some e) = some clause ∧
      Reads options level (e.lines options .otherwise level) [clause]) :
    Reads options level
      ({ level, text := word ++ test.inline ++ ":" } ::
        (yes.lines options .body level ++ no.elim [] fun no => no.lines options .otherwise level))
      [.suite (word ++ test.inline ++ ":") (yes.outline options) (clause? options no)] := by
  obtain ⟨own, hlt, heq⟩ := lines_body options yes level
  rw [heq]
  cases no with
  | none => simpa [clause?] using (hyes own).suite hw hlt (word ++ test.inline ++ ":")
  | some no =>
    obtain ⟨clause, hclause, hreads⟩ := hno no rfl
    rw [hclause]
    exact (hyes own).suite_clause hw hlt (word ++ test.inline ++ ":") hreads

/-- The lines of an expression are read as its statements, among statements as well as below `else`. -/
theorem reads_lines (hw : 0 < options.indentWidth) (e : Expr) :
    (∀ level, Reads options level (e.lines options .statement level) (e.outline options)) ∧
      ∀ level, ∃ clause, clause? options (some e) = some clause ∧
        Reads options level (e.lines options .otherwise level) [clause] := by
  -- below `else` only a condition is special
  have hother : ∀ {e : Expr}, (∀ test yes no, e ≠ .cond test yes no) →
      (∀ level, Reads options level (e.lines options .statement level) (e.outline options)) →
      ∀ level, ∃ clause, clause? options (some e) = some clause ∧
        Reads options level (e.lines options .otherwise level) [clause] := by
    intro e hne hreads level
    obtain ⟨own, hlt, heq⟩ := lines_body options e level
    refine ⟨_, clause?_of_not_cond hne, ?_⟩
    rw [lines_otherwise hne, heq]
    exact (hreads own).suite hw hlt "else:"
  induction e using Expr.induct with
  | cond test yes no _ ihyes ihno =>
    constructor
    · intro level
      rw [lines_cond]
      exact reads_condition hw level "if " ihyes.1 (fun e he => (ihno e he).2 level)
    · intro level
      refine ⟨_, rfl, ?_⟩
      rw [lines_cond]
      exact reads_condition hw level "elif " ihyes.1 (fun e he => (ihno e he).2 level)
  | block depth statements ih =>
    have hstatement : ∀ level, Reads options level ((block depth statements).lines options .statement level)
        ((block depth statements).outline options) := by
      intro level
      rw [lines_block, outline_block]
      by_cases hempty : statements = []
      · rw [if_pos hempty, if_pos hempty]
        exact Reads.line options level "pass"
      · rw [if_neg hempty, if_neg hempty]
        exact reads_linesAll level (fun e he => (ih e he).1 level) hempty
    exact ⟨hstatement, hother (by simp) hstatement⟩
  | _ => exact ⟨fun level => Reads.line options level _, hother (by simp) fun level => Reads.line options level _⟩

end Expr

end Offside
