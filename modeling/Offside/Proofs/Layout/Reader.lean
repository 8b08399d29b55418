import Offside.Source.Place

/-!
# How indentation is read

The reader of the output, as the language of the output defines it. A text is cut into lines, and blank lines are dropped. A stack of
columns turns the indentation of the others into marks: a deeper line opens a suite, and a shallower one closes suites until its
column is met again, or is refused if it never was. The marks are then put together to statements: a suite belongs to the header
right above it, and a clause (`elif`, `else`) to the condition right above it.
-/

namespace Offside.Suite

/-! ## Rows -/

/-- The lines of a text, without their terminators. -/
def textLines : List Char → List (List Char)
  | [] => []
  | c :: cs =>
    if isTerminator c then [] :: textLines cs
    else
      match textLines cs with
      | [] => [[c]]
      | line :: lines => (c :: line) :: lines

/-- A line that is not blank: the number of spaces in front, and the text behind them. -/
structure Row where
  column : Nat
  text : String
deriving DecidableEq, Repr

/-- The row of a line, if it is not blank. -/
def Row.ofLine? (line : List Char) : Option Row :=
  if line.all (· == ' ') then none
  else some { column := (line.takeWhile (· == ' ')).length, text := String.ofList (line.dropWhile (· == ' ')) }

/-- The rows of a text. -/
def rows (text : String) : List Row := (textLines text.toList).filterMap Row.ofLine?

/-! ## Marks -/

/-- What the indentation of a text stands for. -/
inductive Mark where
  | indent
  | dedent
  | line (text : String)
deriving DecidableEq, Repr

/-- The marks of rows below the columns that are open, the innermost first; column zero is always open. A row deeper than the
innermost column opens it. Any other row closes the columns deeper than its own, which has to be open then. -/
def marks : List Nat → List Row → Option (List Mark)
  | columns, [] => some (List.replicate columns.length .dedent)
  | columns, row :: rows =>
    if columns.headD 0 < row.column then
      (marks (row.column :: columns) rows).map (.indent :: .line row.text :: ·)
    else
      let closed := columns.takeWhile (row.column < ·)
      let left := columns.dropWhile (row.column < ·)
      if left.headD 0 = row.column then
        (marks left rows).map (List.replicate closed.length .dedent ++ .line row.text :: ·)
      else none

/-! ## Statements -/

/-- What a header opens. -/
inductive Opener where
  | definition
  | condition
  /-- A further condition, for the case that the ones before it fail. -/
  | continuation
  /-- The case that all conditions fail. -/
  | alternative
deriving DecidableEq, Repr

/-- What a text opens, if it is a header. -/
def opener? (text : String) : Option Opener :=
  if text.toList.getLast? ≠ some ':' then none
  else if text = "else:" then some .alternative
  else if "elif ".toList.isPrefixOf text.toList then some .continuation
  else if "if ".toList.isPrefixOf text.toList then some .condition
  else if "def ".toList.isPrefixOf text.toList then some .definition
  else none

/-- Whether a mark is a header. -/
def Mark.isHeader : Mark → Bool
  | line text => (opener? text).isSome
  | _ => false

/-- A statement: a line, or a header with its suite and the clause that follows it. -/
inductive Statement where
  | line (text : String)
  | suite (header : String) (body : List Statement) (next : Option Statement)
deriving Repr

namespace Statement

/-- Whether a statement only continues the one above it. -/
def isClause : Statement → Bool
  | line _ => false
  | suite header _ _ => opener? header = some .continuation || opener? header = some .alternative

/-- Whether the statements begin with a clause. -/
def beginWithClause (statements : List Statement) : Bool := statements.head?.any isClause

/-- Puts a line in front of the statements below it. A header takes the suite right below it, and a condition the clause behind that
suite. Headers without a suite, suites without a header and clauses without a condition are refused. -/
def put (text : String) (suite? : Option (List Statement)) (below : List Statement) : Option (List Statement) :=
  match opener? text, suite? with
  | none, none => if beginWithClause below then none else some (.line text :: below)
  | some opener, some body =>
    if body.isEmpty || beginWithClause body then none
    else if beginWithClause below then
      if opener = .condition || opener = .continuation then some (.suite text body below.head? :: below.tail) else none
    else some (.suite text body none :: below)
  | _, _ => none

/-- Puts marks together, from the last to the first: the suite that begins right below, if there is one, and the statements of every
suite that is open, the innermost first. -/
def gather : List Mark → Option (Option (List Statement) × List (List Statement))
  | [] => some (none, [[]])
  | .line text :: marks =>
    match gather marks with
    | some (suite?, below :: outer) => (put text suite? below).map fun statements => (none, statements :: outer)
    | _ => none
  | .dedent :: marks =>
    match gather marks with
    | some (none, suites) => some (none, [] :: suites)
    | _ => none
  | .indent :: marks =>
    match gather marks with
    | some (none, body :: outer) => some (some body, outer)
    | _ => none

/-- The statements that marks stand for. -/
def ofMarks? (marks : List Mark) : Option (List Statement) :=
  match gather marks with
  | some (none, [statements]) => if beginWithClause statements then none else some statements
  | _ => none

mutual

/-- The marks of a statement. -/
def toMarks : Statement → List Mark
  | line text => [.line text]
  | suite header body next => .line header :: .indent :: (toMarksAll body ++ .dedent :: toMarksOption next)

/-- The marks of statements, one after the other. -/
def toMarksAll : List Statement → List Mark
  | [] => []
  | s :: ss => s.toMarks ++ toMarksAll ss

/-- The marks of a clause, if there is one. -/
def toMarksOption : Option Statement → List Mark
  | none => []
  | some s => s.toMarks

end

@[simp] theorem toMarksAll_append (ss ss' : List Statement) : toMarksAll (ss ++ ss') = toMarksAll ss ++ toMarksAll ss' := by
  induction ss with
  | nil => rfl
  | cons s ss ih => simp [toMarksAll, ih]

/-- A statement whose headers are the texts with a suite, whose suites hold statements, and whose clauses continue conditions. -/
inductive Proper : Statement → Prop where
  | line {text : String} : opener? text = none → Proper (.line text)
  | suite {header : String} {opener : Opener} {body : List Statement} {next : Option Statement} :
      opener? header = some opener → body ≠ [] → (∀ s ∈ body, Proper s) → (∀ s ∈ body, s.isClause = false) →
      (∀ s ∈ next, Proper s) → (∀ s ∈ next, s.isClause = true) →
      (next.isSome = true → opener = .condition ∨ opener = .continuation) → Proper (.suite header body next)

/-- Statements that stand one below the other. -/
structure AllProper (ss : List Statement) : Prop where
  proper : ∀ s ∈ ss, s.Proper
  notClause : ∀ s ∈ ss, s.isClause = false

/-- Proper statements go on with proper statements. -/
theorem AllProper.append {ss ss' : List Statement} (h : AllProper ss) (h' : AllProper ss') : AllProper (ss ++ ss') := by
  constructor
  · intro s hs
    exact (List.mem_append.mp hs).elim (h.proper s) (h'.proper s)
  · intro s hs
    exact (List.mem_append.mp hs).elim (h.notClause s) (h'.notClause s)

/-- Proper statements begin with no clause. -/
theorem AllProper.beginWithClause {ss : List Statement} (h : AllProper ss) : beginWithClause ss = false := by
  cases ss with
  | nil => rfl
  | cons s ss => exact h.notClause s (by simp)

/-! ## Putting marks together again -/

/-- The marks of statements in front of others are put together to the statements in front of the others. -/
theorem gather_toMarksAll {ss : List Statement}
    (h : ∀ s ∈ ss, ∀ rest below outer, gather rest = some (none, below :: outer) → beginWithClause below = false →
      gather (s.toMarks ++ rest) = some (none, (s :: below) :: outer))
    (hc : ∀ s ∈ ss, s.isClause = false) {rest : List Mark} {below : List Statement} {outer : List (List Statement)}
    (hr : gather rest = some (none, below :: outer)) (hb : beginWithClause below = false) :
    gather (toMarksAll ss ++ rest) = some (none, (ss ++ below) :: outer) := by
  induction ss with
  | nil => exact hr
  | cons s ss ih =>
    rw [toMarksAll, List.append_assoc]
    have hrest := ih (fun s hs => h s (List.mem_cons_of_mem _ hs)) (fun s hs => hc s (List.mem_cons_of_mem _ hs))
    refine h s List.mem_cons_self _ _ _ hrest ?_
    cases ss with
    | nil => exact hb
    | cons s' ss => exact hc s' (by simp)

/-- The marks of a proper statement are put together to that statement, in front of whatever has been put together behind. -/
theorem gather_toMarks {s : Statement} (h : s.Proper) :
    ∀ rest below outer, gather rest = some (none, below :: outer) → beginWithClause below = false →
      gather (s.toMarks ++ rest) = some (none, (s :: below) :: outer) := by
  induction h with
  | @line text ht =>
    intro rest below outer hr hb
    simp [toMarks, gather, hr, put, ht, hb]
  | @suite header opener body next hh hne _ hbc _ hnc hcond ihbody ihnext =>
    intro rest below outer hr hb
    have hbody : beginWithClause body = false := by
      cases body with
      | nil => rfl
      | cons s ss => exact hbc s (by simp)
    -- what is below the header is its suite, then the clause, if there is one, then what was below before
    have hinside : ∀ {marks frame}, gather marks = some (none, frame :: outer) →
        gather (.indent :: (toMarksAll body ++ .dedent :: marks)) = some (some body, frame :: outer) := by
      intro marks frame hm
      have hd : gather (.dedent :: marks) = some (none, [] :: frame :: outer) := by simp [gather, hm]
      have hb := gather_toMarksAll ihbody hbc hd rfl
      simp [gather, hb]
    cases next with
    | none =>
      have hi := hinside hr
      simp only [toMarks, toMarksOption, List.cons_append, List.append_assoc, List.nil_append]
      rw [gather, hi]
      simp [put, hh, hne, hbody, hb]
    | some clause =>
      have hc : clause.isClause = true := hnc clause rfl
      have hi := hinside (ihnext clause rfl rest below outer hr hb)
      have hbelow : beginWithClause (clause :: below) = true := hc
      simp only [toMarks, toMarksOption, List.cons_append, List.append_assoc]
      rw [gather, hi]
      rcases hcond rfl with rfl | rfl <;> simp [put, hh, hne, hbody, hbelow]

/-- Proper statements are what their marks stand for. -/
theorem ofMarks?_toMarksAll {ss : List Statement} (h : AllProper ss) : ofMarks? (toMarksAll ss) = some ss := by
  have hg : gather (toMarksAll ss ++ []) = some (none, (ss ++ []) :: []) :=
    gather_toMarksAll (fun s hs => gather_toMarks (h.proper s hs)) h.notClause rfl rfl
  simp only [List.append_nil] at hg
  simp [ofMarks?, hg, h.beginWithClause]

/-! ## Where suites open -/

/-- Suites open right below the headers, and nowhere else. -/
def OpensAtHeaders (marks : List Mark) : Prop :=
  marks.head? ≠ some .indent ∧
    ∀ before mark after, marks = before ++ mark :: after → (after.head? = some .indent ↔ mark.isHeader = true)

theorem opensAtHeaders_nil : OpensAtHeaders [] := by
  refine ⟨by simp, ?_⟩
  intro before mark after h
  cases before <;> cases h

/-- A mark in front keeps this up if it is a header exactly where the others begin with an indent. -/
theorem OpensAtHeaders.cons {mark : Mark} {marks : List Mark} (hne : mark ≠ .indent)
    (h : marks.head? = some .indent ↔ mark.isHeader = true)
    (hm : ∀ before mark after, marks = before ++ mark :: after → (after.head? = some .indent ↔ mark.isHeader = true)) :
    OpensAtHeaders (mark :: marks) := by
  refine ⟨by simpa using hne, ?_⟩
  intro before mark' after heq
  rcases List.cons_eq_append_iff.mp heq with ⟨_, heq⟩ | ⟨before', _, heq⟩
  · cases heq
    exact h
  · exact hm before' mark' after heq

/-- A mark that is no header in front of marks that begin with none. -/
theorem OpensAtHeaders.cons_plain {mark : Mark} {marks : List Mark} (hm : OpensAtHeaders marks) (hne : mark ≠ .indent)
    (h : mark.isHeader = false) : OpensAtHeaders (mark :: marks) :=
  .cons hne (iff_of_false hm.1 (by simp [h])) hm.2

/-- Suites that open at headers stay so with more statements in front. -/
theorem OpensAtHeaders.append_toMarksAll {ss : List Statement}
    (h : ∀ s ∈ ss, ∀ rest, OpensAtHeaders rest → OpensAtHeaders (s.toMarks ++ rest)) {rest : List Mark}
    (hr : OpensAtHeaders rest) : OpensAtHeaders (toMarksAll ss ++ rest) := by
  induction ss with
  | nil => exact hr
  | cons s ss ih =>
    rw [toMarksAll, List.append_assoc]
    exact h s List.mem_cons_self _ (ih fun s hs => h s (List.mem_cons_of_mem _ hs))

/-- In a proper statement the only suite that opens right away is that of its header. -/
theorem OpensAtHeaders.append_toMarks {s : Statement} (h : s.Proper) :
    ∀ rest, OpensAtHeaders rest → OpensAtHeaders (s.toMarks ++ rest) := by
  induction h with
  | @line text ht =>
    intro rest hr
    exact hr.cons_plain (by simp) (by simp [Mark.isHeader, ht])
  | @suite header opener body next hh hne _ _ _ _ _ ihbody ihnext =>
    intro rest hr
    have hnext : OpensAtHeaders (toMarksOption next ++ rest) := by
      cases next with
      | none => exact hr
      | some clause => exact ihnext clause rfl rest hr
    have hbody := append_toMarksAll ihbody (hnext.cons_plain (by simp : Mark.dedent ≠ .indent) rfl)
    simp only [toMarks, List.cons_append, List.append_assoc]
    refine .cons (by simp) (by simp [Mark.isHeader, hh]) ?_
    -- the indent itself is no header, and its suite does not begin with another indent
    intro before mark after heq
    rcases List.cons_eq_append_iff.mp heq with ⟨_, heq⟩ | ⟨before', _, heq⟩
    · cases heq
      exact iff_of_false hbody.1 (by simp [Mark.isHeader])
    · exact hbody.2 before' mark after heq

/-- In the marks of proper statements every suite opens at a header. -/
theorem opensAtHeaders_toMarksAll {ss : List Statement} (h : ∀ s ∈ ss, s.Proper) : OpensAtHeaders (toMarksAll ss) := by
  rw [← List.append_nil (toMarksAll ss)]
  exact .append_toMarksAll (fun s hs => .append_toMarks (h s hs)) opensAtHeaders_nil

end Statement

end Offside.Suite
