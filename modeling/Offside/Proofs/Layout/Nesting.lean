import Offside.Proofs.Grammar.Invariant
import Offside.Proofs.Layout.Legible
import Offside.Proofs.Layout.Outline

/-!
# The layout of a program

The text of a program is read back by the indentation rule as the statements of the workspace it was written for, as long as the
columns of its lines fit into a word (`Workspace.Fits`). Where one does not, lines of different levels may begin in the same column.
-/

namespace Offside

/-- The column of a line fits into a word. -/
def Line.Fits (options : Options) (l : Line) : Prop := options.indentWidth * l.level < Nat.pow 2 64

instance (options : Options) (l : Line) : Decidable (l.Fits options) := inferInstanceAs (Decidable (_ < _))

/-- The columns of all lines of the program fit into a word. -/
def Workspace.Fits (options : Options) (w : Workspace) : Prop :=
  ∀ l ∈ w.globalLines options ++ w.functionLines options, l.Fits options

instance (options : Options) (w : Workspace) : Decidable (w.Fits options) := inferInstanceAs (Decidable (∀ l ∈ _, _))

namespace Suite

/-! ## From the text to its rows -/

/-- A line ends with the line feed behind it. -/
theorem textLines_append {line : List Char} (h : ∀ c ∈ line, isTerminator c = false) (rest : List Char) :
    textLines (line ++ '\n' :: rest) = line :: textLines rest := by
  induction line with
  | nil => rfl
  | cons c line ih =>
    have hc : ¬isTerminator c = true := by simp [h c List.mem_cons_self]
    rw [List.cons_append, textLines, if_neg hc, ih fun d hd => h d (List.mem_cons_of_mem _ hd)]

/-- The spaces in front of a text that begins with none are all there are. -/
theorem takeWhile_indented {n : Nat} {cs : List Char} (h : ∃ c ∈ cs.head?, c ≠ ' ') :
    (List.replicate n ' ' ++ cs).takeWhile (· == ' ') = List.replicate n ' ' ∧
      (List.replicate n ' ' ++ cs).dropWhile (· == ' ') = cs := by
  obtain ⟨c, hc, hne⟩ := h
  have hspaces : ∀ d ∈ List.replicate n ' ', (d == ' ') = true := by
    intro d hd
    rw [(List.mem_replicate.mp hd).2]
    rfl
  cases cs with
  | nil => cases hc
  | cons d cs =>
    cases hc
    rw [List.takeWhile_append_of_pos hspaces, List.dropWhile_append_of_pos hspaces]
    simp [hne]

/-- An indented text is a row: the spaces in front are its column. -/
theorem ofLine?_indented {n : Nat} {s : String} (h : ∃ c ∈ s.toList.head?, c ≠ ' ') :
    Row.ofLine? (List.replicate n ' ' ++ s.toList) = some { column := n, text := s } := by
  have hne : ¬(List.replicate n ' ' ++ s.toList).all (· == ' ') = true := by
    obtain ⟨c, hc, hne⟩ := h
    intro hall
    have := List.all_eq_true.mp hall c (List.mem_append_right _ (List.mem_of_mem_head? hc))
    exact hne (eq_of_beq this)
  rw [Row.ofLine?, if_neg hne, (takeWhile_indented h).1, (takeWhile_indented h).2]
  simp

/-- The characters of a line of the output, without its terminator. -/
def charsOf (options : Options) (l : Line) : List Char := List.replicate (options.column l.level) ' ' ++ l.text.toList

/-- Neither indentation nor text break a line of the output. -/
theorem unbroken_charsOf (options : Options) {l : Line} (h : Unbroken l.text) : ∀ c ∈ charsOf options l, isTerminator c = false := by
  intro c hc
  rcases List.mem_append.mp hc with hc | hc
  · rw [(List.mem_replicate.mp hc).2]
    rfl
  · exact h c hc

theorem renderAll_cons (options : Options) (l : Line) (lines : List Line) :
    (Line.renderAll options (l :: lines)).toList = charsOf options l ++ '\n' :: (Line.renderAll options lines).toList := by
  simp [Line.renderAll, Line.render, Options.indentation, charsOf]

/-- Where its column fits into a word, a line is indented by as many spaces as its level asks for. -/
theorem charsOf_of_fits {options : Options} {l : Line} (h : l.Fits options) :
    charsOf options l = List.replicate (options.indentWidth * l.level) ' ' ++ l.text.toList := by
  rw [charsOf, Options.column, Nat.mod_eq_of_lt h]

/-- The lines that were written are the lines of the text. -/
theorem textLines_renderAll (options : Options) {lines : List Line} (h : ∀ l ∈ lines, Unbroken l.text) :
    textLines (Line.renderAll options lines).toList = lines.map (charsOf options) := by
  induction lines with
  | nil => rfl
  | cons l lines ih =>
    rw [renderAll_cons, textLines_append (unbroken_charsOf options (h l List.mem_cons_self)),
      ih fun l' hl' => h l' (List.mem_cons_of_mem _ hl')]
    rfl

/-- An empty line is no row. -/
theorem rows_empty (options : Options) (lines : List Line) :
    rows (Line.renderAll options (Line.empty :: lines)) = rows (Line.renderAll options lines) := by
  rw [rows, renderAll_cons, textLines_append (unbroken_charsOf options (by decide)), List.filterMap_cons]
  rfl

/-- Lines that begin with no space are rows. -/
theorem rows_append {options : Options} {lines : List Line} (h : ∀ l ∈ lines, OnLine l.text)
    (hfits : ∀ l ∈ lines, l.Fits options) (rest : List Line) :
    rows (Line.renderAll options (lines ++ rest)) = lines.map (rowOf options) ++ rows (Line.renderAll options rest) := by
  induction lines with
  | nil => rfl
  | cons l lines ih =>
    have hl := h l List.mem_cons_self
    have hrest := ih (fun l' hl' => h l' (List.mem_cons_of_mem _ hl')) fun l' hl' => hfits l' (List.mem_cons_of_mem _ hl')
    rw [rows] at hrest
    rw [List.cons_append, rows, renderAll_cons, textLines_append (unbroken_charsOf options hl.unbroken), List.filterMap_cons,
      charsOf_of_fits (hfits l List.mem_cons_self), ofLine?_indented hl.first, hrest]
    rfl

/-! ## Headers -/

/-- A statement is not taken for a header. -/
theorem opener?_of_legible {s : String} (h : Legible s) : opener? s = none := by
  obtain ⟨c, hc, hne⟩ := h.last
  rw [opener?, if_pos]
  intro hlast
  rw [Option.mem_def.mp hc] at hlast
  exact hne (Option.some.inj hlast)

/-- What a header opens is decided by its first word. -/
theorem opener?_header (s : String) :
    opener? ("if " ++ s ++ ":") = some .condition ∧ opener? ("elif " ++ s ++ ":") = some .continuation ∧
      opener? ("def " ++ s ++ ":") = some .definition := by
  have hlast : ∀ word : String, ¬(word ++ s ++ ":").toList.getLast? ≠ some ':' := by
    intro word
    rw [String.toList_append, List.getLast?_append]
    exact fun h => h rfl
  have hif : "if " ++ s ++ ":" ≠ "else:" := fun heq => by simpa using congrArg String.toList heq
  have helif : "elif " ++ s ++ ":" ≠ "else:" := fun heq => by simpa using congrArg String.toList heq
  have hdef : "def " ++ s ++ ":" ≠ "else:" := fun heq => by simpa using congrArg String.toList heq
  refine ⟨?_, ?_, ?_⟩
  · rw [opener?, if_neg (hlast _), if_neg hif, if_neg (by simp), if_pos (by simp)]
  · rw [opener?, if_neg (hlast _), if_neg helif, if_pos (by simp)]
  · rw [opener?, if_neg (hlast _), if_neg hdef, if_neg (by simp), if_neg (by simp), if_pos (by simp)]

/-- A header can stand on a line. -/
theorem onLine_header {word s : String} (hword : OnLine word) (hs : Unbroken s) : OnLine (word ++ s ++ ":") :=
  (hword.append hs).append (by decide)

/-- A line that is not taken for a header is a statement of its own. -/
theorem Statement.AllProper.line {t : String} (h : Legible t) : Statement.AllProper [.line t] where
  proper := by
    intro s hs
    rw [List.mem_singleton.mp hs]
    exact .line (opener?_of_legible h)
  notClause := by
    intro s hs
    rw [List.mem_singleton.mp hs]
    rfl

end Suite

namespace Slot

/-- The header above another branch can stand on a line. -/
theorem onLine_header (slot : Slot) (level : Nat) : ∀ l ∈ slot.header level, OnLine l.text := by
  have helse : OnLine "else:" := ⟨⟨'e', rfl, by decide⟩, by decide⟩
  intro l hl
  cases slot with
  | otherwise =>
    rw [List.mem_singleton.mp hl]
    exact helse
  | _ => cases hl

theorem onLine_conditionWord (slot : Slot) : OnLine slot.conditionWord := by
  cases slot with
  | otherwise => exact ⟨⟨'e', rfl, by decide⟩, by decide⟩
  | _ => exact ⟨⟨'i', rfl, by decide⟩, by decide⟩

end Slot

namespace Expr

open Suite (Statement)

variable {options : Options} {d : Nat}

/-- The lines of several statements are those of each. -/
theorem mem_linesAll {statements : List Expr} {level : Nat} {l : Line} (h : l ∈ linesAll options level statements) :
    ∃ e ∈ statements, l ∈ e.lines options .statement level := by
  induction statements with
  | nil => cases h
  | cons first rest ih =>
    rw [linesAll, List.mem_append] at h
    rcases h with h | h
    · exact ⟨first, List.mem_cons_self, h⟩
    · obtain ⟨e, he, hl⟩ := ih h
      exact ⟨e, List.mem_cons_of_mem _ he, hl⟩

/-- The statements of several expressions are those of each. -/
theorem mem_outlineAll {statements : List Expr} {s : Statement} (h : s ∈ outlineAll options statements) :
    ∃ e ∈ statements, s ∈ e.outline options := by
  induction statements with
  | nil => cases h
  | cons first rest ih =>
    rw [outlineAll, List.mem_append] at h
    rcases h with h | h
    · exact ⟨first, List.mem_cons_self, h⟩
    · obtain ⟨e, he, hs⟩ := ih h
      exact ⟨e, List.mem_cons_of_mem _ he, hs⟩

/-- What takes one line is written below the header that its slot asks for. -/
theorem lines_of_takesLine {e : Expr} (h : e.takesLine = true) (slot : Slot) (level : Nat) :
    e.lines options slot level = slot.header level ++ [{ level := slot.lineLevel level, text := e.statementText options }] := by
  cases e with
  | cond | block => cases h
  | _ => rfl

/-- What takes one line stands for that line. -/
theorem outline_of_takesLine {e : Expr} (h : e.takesLine = true) : e.outline options = [.line (e.statementText options)] := by
  cases e with
  | cond | block => cases h
  | _ => rfl

/-- The lines of a well-formed expression can stand where they are written. -/
theorem onLine_lines (hk : options.declarationKeyword = none) {e : Expr} (h : e.Formed (isFlat · = true) (isFlat · = true) d) :
    ∀ slot level, ∀ l ∈ e.lines options slot level, OnLine l.text := by
  have hpass : OnLine "pass" := ⟨⟨'p', rfl, by decide⟩, by decide⟩
  refine h.inductLines ?line ?cond ?block
  case line =>
    intro d e h hline slot level l hl
    rw [lines_of_takesLine hline, List.mem_append] at hl
    rcases hl with hl | hl
    · exact slot.onLine_header level l hl
    · rw [List.mem_singleton.mp hl]
      exact (statementText_legible hk h).toOnLine
  case cond =>
    intro d test yes no htest ihyes ihno slot level l hl
    rw [lines_cond, List.mem_cons, List.mem_append] at hl
    rcases hl with rfl | hl | hl
    · exact Suite.onLine_header slot.onLine_conditionWord (inline_legible htest).unbroken
    · exact ihyes _ _ l hl
    · cases no with
      | none => cases hl
      | some no => exact ihno no rfl _ _ l hl
  case block =>
    intro depth statements ih slot level l hl
    rw [lines_block, List.mem_append] at hl
    rcases hl with hl | hl
    · exact slot.onLine_header level l hl
    · split at hl
      · rw [List.mem_singleton.mp hl]
        exact hpass
      · obtain ⟨e, he, hl⟩ := mem_linesAll hl
        exact ih e he _ _ l hl

/-- The statements of an expression are proper ones, and so is the clause for it as the other branch of a condition. -/
structure ProperOutline (options : Options) (e : Expr) : Prop where
  statements : Statement.AllProper (e.outline options)
  nonempty : e.outline options ≠ []
  clause : ∀ s ∈ clause? options (some e), s.Proper ∧ s.isClause = true

/-- What is no condition stands below `else` as the other branch. -/
theorem ProperOutline.of_not_cond {e : Expr} (hne : ∀ test yes no, e ≠ .cond test yes no)
    (hproper : Statement.AllProper (e.outline options)) (hnonempty : e.outline options ≠ []) : ProperOutline options e where
  statements := hproper
  nonempty := hnonempty
  clause := by
    have hopen : Suite.opener? "else:" = some .alternative := by decide
    intro s hs
    rw [clause?_of_not_cond hne] at hs
    cases hs
    refine ⟨.suite hopen hnonempty hproper.proper hproper.notClause (by simp) (by simp) (by simp), ?_⟩
    simp [Statement.isClause, hopen]

/-- A condition begins with `if`, and with `elif` as the other branch. -/
theorem ProperOutline.of_cond {test yes : Expr} {no : Option Expr} (hyes : ProperOutline options yes)
    (hno : ∀ e ∈ no, ProperOutline options e) : ProperOutline options (.cond test yes no) := by
  obtain ⟨hif, helif, _⟩ := Suite.opener?_header test.inline
  have hclause : ∀ s ∈ clause? options no, s.Proper ∧ s.isClause = true := by
    intro s hs
    cases no with
    | none => cases hs
    | some no => exact (hno no rfl).clause s hs
  have hsuite : ∀ {header : String} {opener : Suite.Opener}, Suite.opener? header = some opener →
      opener = .condition ∨ opener = .continuation →
      Statement.Proper (.suite header (yes.outline options) (clause? options no)) :=
    fun hheader hopener => .suite hheader hyes.nonempty hyes.statements.proper hyes.statements.notClause
      (fun s hs => (hclause s hs).1) (fun s hs => (hclause s hs).2) (fun _ => hopener)
  refine ⟨⟨fun s hs => ?_, fun s hs => ?_⟩, by simp [outline], fun s hs => ?_⟩
  · rw [List.mem_singleton.mp hs]
    exact hsuite hif (Or.inl rfl)
  · rw [List.mem_singleton.mp hs]
    simp [Statement.isClause, hif]
  · cases hs
    exact ⟨hsuite helif (Or.inr rfl), by simp [Statement.isClause, helif]⟩

/-- What has been read stands for proper statements: suites are not empty, and clauses follow a condition. -/
theorem properOutline (hk : options.declarationKeyword = none) {e : Expr} (h : e.Formed (isFlat · = true) (isFlat · = true) d) :
    ProperOutline options e := by
  refine h.inductLines ?line (fun _ ihyes ihno => .of_cond ihyes ihno) ?block
  case line =>
    intro d e h hline
    have hproper : Statement.AllProper (e.outline options) := by
      rw [outline_of_takesLine hline]
      exact .line (statementText_legible hk h)
    refine .of_not_cond (fun test yes no heq => ?_) hproper (by simp [outline_of_takesLine hline])
    rw [heq] at hline
    cases hline
  case block =>
    intro depth statements ih
    have hproper : Statement.AllProper ((block depth statements).outline options) ∧
        (block depth statements).outline options ≠ [] := by
      rw [outline_block]
      split
      · exact ⟨.line (.of_forall (by decide) (by decide)), by simp⟩
      · rename_i hne
        refine ⟨⟨fun s hs => ?_, fun s hs => ?_⟩, ?_⟩
        · obtain ⟨e, he, hs⟩ := mem_outlineAll hs
          exact (ih e he).statements.proper s hs
        · obtain ⟨e, he, hs⟩ := mem_outlineAll hs
          exact (ih e he).statements.notClause s hs
        · obtain ⟨first, rest, rfl⟩ := List.exists_cons_of_ne_nil hne
          rw [outlineAll]
          exact List.append_ne_nil_of_left_ne_nil (ih first List.mem_cons_self).nonempty _
    exact .of_not_cond (by simp) hproper.1 hproper.2

end Expr

/-! ## The whole program -/

namespace Suite

open Statement (toMarksAll)

variable {options : Options}

/-- What is read piece by piece at the outermost level is read as the statements of the pieces. -/
theorem marks_flatMap {α : Type} {xs : List α} {lines : α → List Line} {statements : α → List Statement}
    (h : ∀ x ∈ xs, Reads options 0 (lines x) (statements x)) {rows : List Row} (hr : Returns 0 rows) :
    marks [] ((xs.flatMap lines).map (rowOf options) ++ rows) = (marks [] rows).map (toMarksAll (xs.flatMap statements) ++ ·) ∧
      Returns 0 ((xs.flatMap lines).map (rowOf options) ++ rows) := by
  induction xs with
  | nil => exact ⟨by simp [Statement.toMarksAll], hr⟩
  | cons x xs ih =>
    have hx := h x List.mem_cons_self
    obtain ⟨hrest, hreturns⟩ := ih fun y hy => h y (List.mem_cons_of_mem _ hy)
    simp only [List.flatMap_cons, List.map_append, List.append_assoc]
    constructor
    · rw [hx.marks_eq rfl hreturns, hrest, Option.map_map]
      simp [Function.comp_def]
    · exact hx.returns _

end Suite

namespace Function

variable {options : Options} {f : Function}

/-- The lines of a function without the empty line behind it. -/
def codeLines (options : Options) (f : Function) : List Line := { level := 0, text := f.header } :: f.body.lines options .body 0

theorem lines_eq (options : Options) (f : Function) : f.lines options = f.codeLines options ++ [Line.empty] := rfl

theorem header_eq (f : Function) : f.header = "def " ++ (f.name ++ "(" ++ ", ".intercalate f.params ++ ")") ++ ":" := by
  simp [header, String.append_assoc]

/-- The lines of a function can stand where they are written. -/
theorem onLine_codeLines (hk : options.declarationKeyword = none) (h : f.Formed (isFlat · = true) (isFlat · = true)) :
    ∀ l ∈ f.codeLines options, OnLine l.text := by
  intro l hl
  rcases List.mem_cons.mp hl with rfl | hl
  · have hname := (Legible.of_isFlat (isFlat_of_isName h.name)).unbroken
    have hparams : Unbroken (", ".intercalate f.params) :=
      .intercalate (by decide) fun p hp => (Legible.of_isFlat (isFlat_of_isName (h.params p hp))).unbroken
    have hsignature := ((hname.append (by decide : Unbroken "(")).append hparams).append (by decide : Unbroken ")")
    show OnLine f.header
    rw [header_eq]
    exact Suite.onLine_header ⟨⟨'d', rfl, by decide⟩, by decide⟩ hsignature
  · exact Expr.onLine_lines hk h.body _ _ l hl

/-- The rows of functions are those of their lines: the empty line behind each of them makes none. -/
theorem rows_lines {fs : List Function} (hk : options.declarationKeyword = none)
    (h : ∀ f ∈ fs, f.Formed (isFlat · = true) (isFlat · = true)) (hfits : ∀ l ∈ fs.flatMap (Function.lines options), l.Fits options) :
    Suite.rows (Line.renderAll options (fs.flatMap (Function.lines options))) =
      (fs.flatMap (Function.codeLines options)).map (Suite.rowOf options) := by
  induction fs with
  | nil => rfl
  | cons f fs ih =>
    rw [List.flatMap_cons, lines_eq] at hfits
    have hf := onLine_codeLines hk (h f List.mem_cons_self)
    have hcode : ∀ l ∈ f.codeLines options, l.Fits options :=
      fun l hl => hfits l (List.mem_append_left _ (List.mem_append_left _ hl))
    have hrest := ih (fun g hg => h g (List.mem_cons_of_mem _ hg)) fun l hl => hfits l (List.mem_append_right _ hl)
    rw [List.flatMap_cons, lines_eq, List.append_assoc, Suite.rows_append hf hcode, List.singleton_append, Suite.rows_empty, hrest,
      List.flatMap_cons, List.map_append]

/-- A function is read as a definition with the body as its suite. -/
theorem reads_codeLines (hw : 0 < options.indentWidth) (f : Function) :
    Suite.Reads options 0 (f.codeLines options) [f.outline options] := by
  obtain ⟨own, hlt, heq⟩ := Expr.lines_body options f.body 0
  rw [codeLines, heq]
  exact ((Expr.reads_lines hw f.body).1 own).suite hw hlt f.header

/-- A function stands for a proper statement that is no clause. -/
theorem proper_outline (hk : options.declarationKeyword = none) (h : f.Formed (isFlat · = true) (isFlat · = true)) :
    (f.outline options).Proper ∧ (f.outline options).isClause = false := by
  obtain ⟨hbody, hne, _⟩ := Expr.properOutline hk h.body
  have hopen : Suite.opener? f.header = some .definition := by
    rw [header_eq]
    exact (Suite.opener?_header _).2.2
  exact ⟨.suite hopen hne hbody.proper hbody.notClause (by simp) (by simp) (by simp),
    by simp [outline, Suite.Statement.isClause, hopen]⟩

end Function

namespace Workspace.Formed

open Suite (Statement)

variable {table : Externals} {options : Options} {w : Workspace}

/-- Resolved names are flat if the names of the table are. -/
theorem naming_isFlat (h : ∀ entry ∈ table.entries, isFlat entry.2 = true) : Naming (isFlat · = true) (isFlat · = true) table := by
  have hresolve : ∀ name, isFlat name = true → isFlat (table.resolve name) = true := by
    intro name hname
    rw [Externals.resolve]
    cases hl : table.entries.lookup name with
    | none => exact hname
    | some flat =>
      obtain ⟨entries, _, heq, _⟩ := List.lookup_eq_some_iff.mp hl
      exact h (name, flat) (by simp [heq])
  exact ⟨fun name hname => hresolve _ (isFlat_of_isName hname), fun name hname => hresolve _ (isFlat_of_isName hname),
    fun name member hname hmember => hresolve _ (isFlat_member (isFlat_of_isName hname) (isFlat_of_isName hmember))⟩

/-- The lines of a program can stand where they are written, but for the empty ones. -/
theorem onLine_lines (hk : options.declarationKeyword = none) (h : w.Formed (isFlat · = true) (isFlat · = true) table) :
    ∀ l ∈ w.globalLines options ++ Line.empty :: w.functionLines options, l = Line.empty ∨ OnLine l.text := by
  intro l hl
  simp only [globalLines, functionLines, List.mem_append, List.mem_cons, List.mem_flatMap] at hl
  rcases hl with ⟨f, hf, hl⟩ | rfl | ⟨f, hf, hl⟩
  · exact Or.inr (Expr.onLine_lines hk (h.globals f hf).2 _ _ l hl)
  · exact Or.inl rfl
  · rw [Function.lines_eq, List.mem_append, List.mem_singleton] at hl
    exact hl.symm.imp_right fun hl => Function.onLine_codeLines hk (h.functions f hf) l hl

/-- The rows of a program: those of the expressions outside functions, and those of the functions. -/
theorem rows_render (hk : options.declarationKeyword = none) (h : w.Formed (isFlat · = true) (isFlat · = true) table)
    (hfits : w.Fits options) :
    Suite.rows (w.render options) = (w.globalLines options).map (Suite.rowOf options) ++
      (w.functions.flatMap (Function.codeLines options)).map (Suite.rowOf options) := by
  have hglobals : ∀ l ∈ w.globalLines options, OnLine l.text := by
    intro l hl
    obtain ⟨f, hf, hl⟩ := List.mem_flatMap.mp hl
    exact Expr.onLine_lines hk (h.globals f hf).2 _ _ l hl
  rw [render, Suite.rows_append hglobals fun l hl => hfits l (List.mem_append_left _ hl), Suite.rows_empty, functionLines,
    Function.rows_lines hk h.functions fun l hl => hfits l (List.mem_append_right _ hl)]

/-- A workspace stands for proper statements. -/
theorem allProper_outline (hk : options.declarationKeyword = none) (h : w.Formed (isFlat · = true) (isFlat · = true) table) :
    Statement.AllProper (w.outline options) := by
  refine .append ⟨fun s hs => ?_, fun s hs => ?_⟩ ⟨fun s hs => ?_, fun s hs => ?_⟩
  · obtain ⟨f, hf, hs⟩ := List.mem_flatMap.mp hs
    exact (Expr.properOutline hk (h.globals f hf).2).statements.proper s hs
  · obtain ⟨f, hf, hs⟩ := List.mem_flatMap.mp hs
    exact (Expr.properOutline hk (h.globals f hf).2).statements.notClause s hs
  · obtain ⟨f, hf, rfl⟩ := List.mem_map.mp hs
    exact (Function.proper_outline hk (h.functions f hf)).1
  · obtain ⟨f, hf, rfl⟩ := List.mem_map.mp hs
    exact (Function.proper_outline hk (h.functions f hf)).2

/-- The indentation rule finds the statements of the workspace in the program. -/
theorem marks_render (hwidth : 0 < options.indentWidth) (hk : options.declarationKeyword = none)
    (h : w.Formed (isFlat · = true) (isFlat · = true) table)
    (hfits : w.Fits options) :
    Suite.marks [] (Suite.rows (w.render options)) = some (Statement.toMarksAll (w.outline options)) := by
  have hend : Suite.Returns 0 [] := by
    intro row hrow
    cases hrow
  have hfunctions := Suite.marks_flatMap (fun f (_ : f ∈ w.functions) => Function.reads_codeLines hwidth f) hend
  have hglobals := Suite.marks_flatMap (fun f (_ : f ∈ w.globals) => (Expr.reads_lines hwidth f.body).1 0) hfunctions.2
  rw [List.append_nil] at hfunctions hglobals
  rw [rows_render hk h hfits, globalLines, hglobals.1, hfunctions.1]
  simp [Suite.marks, outline, List.map_eq_flatMap]

/-- Every line of a program that is not blank is indented by whole levels. -/
theorem indented_lines (hk : options.declarationKeyword = none) (h : w.Formed (isFlat · = true) (isFlat · = true) table)
    (hfits : w.Fits options) :
    ∀ line ∈ Suite.textLines (w.render options).toList, ¬line.all (· == ' ') = true →
      ∃ level text, line = List.replicate (options.indentWidth * level) ' ' ++ text ∧ text.head? ≠ some ' ' := by
  have hlines := onLine_lines hk h
  have hunbroken : ∀ l ∈ w.globalLines options ++ Line.empty :: w.functionLines options, Unbroken l.text := by
    intro l hl
    rcases hlines l hl with rfl | hl
    · exact (by decide : Unbroken "")
    · exact hl.unbroken
  intro line hline hblank
  rw [render, Suite.textLines_renderAll options hunbroken] at hline
  obtain ⟨l, hl, rfl⟩ := List.mem_map.mp hline
  rcases hlines l hl with rfl | hstands
  · exact absurd rfl hblank
  · obtain ⟨c, hc, hne⟩ := hstands.first
    have hcode : l ∈ w.globalLines options ++ w.functionLines options := by
      rcases List.mem_append.mp hl with hl | hl
      · exact List.mem_append_left _ hl
      · rcases List.mem_cons.mp hl with rfl | hl
        · cases hc
        · exact List.mem_append_right _ hl
    refine ⟨l.level, l.text.toList, Suite.charsOf_of_fits (hfits l hcode), ?_⟩
    rw [Option.mem_def.mp hc]
    simpa using hne

end Workspace.Formed

end Offside
