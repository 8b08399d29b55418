import Offside.Layout.Statement
import Offside.Proofs.Binary64.Literal
import Offside.Proofs.Formed
import Offside.Proofs.Token.Stream

/-!
# Texts on one line

The text of an expression fits on a line: it has no line terminator, and it begins with no space, so that the spaces in front of it
are its indentation. It does not end with a colon, so that it is not taken for a header.
-/

namespace Offside

/-- No line ends in a text. -/
def Unbroken (s : String) : Prop := ∀ c ∈ s.toList, isTerminator c = false

instance (s : String) : Decidable (Unbroken s) := inferInstanceAs (Decidable (∀ c ∈ s.toList, isTerminator c = false))

/-- A text that can stand on a line: it begins with no space, and no line ends in it. -/
structure OnLine (s : String) : Prop where
  first : ∃ c ∈ s.toList.head?, c ≠ ' '
  unbroken : Unbroken s

/-- A text that can stand on a line and is not taken for a header. -/
structure Legible (s : String) : Prop extends OnLine s where
  last : ∃ c ∈ s.toList.getLast?, c ≠ ':'

section

variable {a b separator : String} {parts : List String}

/-- A text that is put together of unbroken parts stays on its line. -/
theorem Unbroken.append (ha : Unbroken a) (hb : Unbroken b) : Unbroken (a ++ b) := by
  intro c hc
  rw [String.toList_append] at hc
  exact (List.mem_append.mp hc).elim (ha c) (hb c)

/-- A list of unbroken parts stays on its line, if the separator between them does. -/
theorem Unbroken.intercalate (hs : Unbroken separator) (h : ∀ t ∈ parts, Unbroken t) : Unbroken (separator.intercalate parts) := by
  induction parts with
  | nil => exact (by decide : Unbroken "")
  | cons first rest ih =>
    have hfirst := h first List.mem_cons_self
    cases rest with
    | nil => simpa using hfirst
    | cons second rest =>
      rw [String.intercalate_cons_cons]
      exact (hfirst.append hs).append (ih fun t ht => h t (List.mem_cons_of_mem _ ht))

/-- How a text begins is decided by its first part. -/
theorem OnLine.append (ha : OnLine a) (hb : Unbroken b) : OnLine (a ++ b) := by
  obtain ⟨c, hc, hne⟩ := ha.first
  refine ⟨⟨c, ?_, hne⟩, ha.unbroken.append hb⟩
  rw [String.toList_append, List.head?_append, Option.mem_def.mp hc]
  rfl

/-- How a text ends is decided by its last part. -/
theorem Legible.of_last (ha : OnLine a) (hb : Unbroken b) (hlast : ∃ c ∈ b.toList.getLast?, c ≠ ':') : Legible (a ++ b) := by
  obtain ⟨c, hc, hne⟩ := hlast
  refine ⟨ha.append hb, c, ?_, hne⟩
  rw [String.toList_append, List.getLast?_append, Option.mem_def.mp hc]
  rfl

/-- The first character decides from the left, the last one from the right. -/
theorem Legible.append (ha : OnLine a) (hb : Legible b) : Legible (a ++ b) :=
  .of_last ha hb.unbroken hb.last

/-- A text of characters that are neither spaces nor colons nor terminators. -/
theorem Legible.of_forall (hne : a.toList ≠ []) (h : ∀ c ∈ a.toList, c ≠ ' ' ∧ c ≠ ':' ∧ isTerminator c = false) : Legible a := by
  obtain ⟨c, cs, heq⟩ := List.exists_cons_of_ne_nil hne
  have hlast := List.getLast_mem hne
  refine ⟨⟨⟨c, by rw [heq]; rfl, (h c (by simp [heq])).1⟩, fun d hd => (h d hd).2.2⟩, _, ?_, (h _ hlast).2.1⟩
  exact List.getLast?_eq_some_getLast hne

/-- A list that is not empty begins and ends like its first and its last part. -/
theorem Legible.intercalate (hne : parts ≠ []) (h : ∀ t ∈ parts, Legible t) (hs : Unbroken separator) :
    Legible (separator.intercalate parts) := by
  induction parts with
  | nil => exact absurd rfl hne
  | cons first rest ih =>
    have hfirst := h first List.mem_cons_self
    cases rest with
    | nil => simpa using hfirst
    | cons second rest =>
      rw [String.intercalate_cons_cons]
      exact .append (hfirst.toOnLine.append hs) (ih (by simp) fun t ht => h t (List.mem_cons_of_mem _ ht))

theorem onLine_parenthesis : OnLine "(" := ⟨⟨'(', rfl, by decide⟩, by decide⟩

theorem legible_parenthesis : Legible ")" := .of_forall (by decide) (by decide)

end

/-! ## Names and numbers -/

/-- A name made of characters of names and points. -/
def isFlat (name : String) : Bool :=
  !name.toList.isEmpty && name.toList.all fun c => Lexeme.continuesName c || c == '.'

/-- A class of characters without the space, the colon and the terminators. -/
theorem legible_of_class {p : Char → Bool} (hspace : p ' ' = false) (hcolon : p ':' = false) (hline : p '\n' = false)
    (hreturn : p '\r' = false) {c : Char} (h : p c = true) : c ≠ ' ' ∧ c ≠ ':' ∧ isTerminator c = false := by
  grind [isTerminator]

/-- No character of a name can be taken for indentation, for the end of a header or for the end of a line. -/
theorem Lexeme.continuesName_legible {c : Char} (h : Lexeme.continuesName c = true) :
    c ≠ ' ' ∧ c ≠ ':' ∧ isTerminator c = false :=
  legible_of_class (by decide) (by decide) (by decide) (by decide) h

/-- No digit can be taken for one of these either. -/
theorem isDigit_legible {c : Char} (h : c.isDigit = true) : c ≠ ' ' ∧ c ≠ ':' ∧ isTerminator c = false :=
  legible_of_class (p := Char.isDigit) (by decide) (by decide) (by decide) (by decide) h

/-- A flat name is a text of name characters and dots that is not empty. -/
theorem isFlat_iff {name : String} :
    isFlat name = true ↔ name.toList ≠ [] ∧ ∀ c ∈ name.toList, Lexeme.continuesName c = true ∨ c = '.' := by
  simp [isFlat]

/-- A flat name can stand on a line. -/
theorem Legible.of_isFlat {name : String} (h : isFlat name = true) : Legible name := by
  obtain ⟨hne, hall⟩ := isFlat_iff.mp h
  refine .of_forall hne fun c hc => ?_
  rcases hall c hc with hc | rfl
  · exact Lexeme.continuesName_legible hc
  · decide

/-- A name is flat. -/
theorem isFlat_of_isName {name : String} (h : isName name = true) : isFlat name = true := by
  obtain ⟨c, cs, heq, hc, hcs, _⟩ := isName_cases h
  rw [isFlat_iff, heq]
  refine ⟨by simp, fun d hd => Or.inl ?_⟩
  rcases List.mem_cons.mp hd with rfl | hd
  · simp [Lexeme.continuesName, hc]
  · exact hcs d hd

/-- A name with a member is flat. -/
theorem isFlat_member {name member : String} (h : isFlat name = true) (h' : isFlat member = true) :
    isFlat (name ++ "." ++ member) = true := by
  obtain ⟨hne, hall⟩ := isFlat_iff.mp h
  obtain ⟨_, hall'⟩ := isFlat_iff.mp h'
  rw [isFlat_iff]
  simp only [String.toList_append, List.mem_append]
  refine ⟨by simp [hne], ?_⟩
  rintro c ((hc | hc) | hc)
  · exact hall c hc
  · exact Or.inr (by simpa using hc)
  · exact hall' c hc

/-- A number of the source is written with digits and a point. -/
theorem Binary64.literal_legible {x : Binary64} (h : x.IsPlain) : Legible x.literal := by
  have heq := literal_toList h
  refine .of_forall (by simp [heq]) fun c hc => ?_
  rw [heq, List.mem_append, List.mem_cons] at hc
  rcases hc with hc | rfl | hc
  · exact isDigit_legible (Nat.isDigit_of_mem_toDigits (by decide) (by decide) hc)
  · decide
  · exact isDigit_legible (isDigit_of_mem_fractionOf hc)

/-! ## Expressions -/

/-- All operands but the last are targets, each of which opens a parenthesis. -/
theorem nestedAssignment_cons_cons (target operand : String) (operands : List String) :
    nestedAssignment (target :: operand :: operands) =
      "(" ++ (target ++ " := " ++ nestedAssignment (operand :: operands)) ++ ")" := by
  simp [nestedAssignment, toString, String.append_assoc]

/-- Assignments in each other are enclosed in parentheses, and a single operand stands for itself. -/
theorem Legible.nestedAssignment {operands : List String} (hne : operands ≠ []) (h : ∀ t ∈ operands, Legible t) :
    Legible (nestedAssignment operands) := by
  induction operands with
  | nil => exact absurd rfl hne
  | cons target operands ih =>
    have htarget := h target List.mem_cons_self
    cases operands with
    | nil => exact htarget
    | cons operand operands =>
      have hrest := ih (by simp) fun t ht => h t (List.mem_cons_of_mem _ ht)
      rw [nestedAssignment_cons_cons]
      exact .append (onLine_parenthesis.append ((htarget.unbroken.append (by decide)).append hrest.unbroken)) legible_parenthesis

/-- The value of a block ends with a bracket, with `None` or with the only value there is. -/
theorem Legible.lastValue {values : List String} (h : ∀ t ∈ values, Legible t) : Legible (lastValue values) := by
  match values with
  | [] => exact .of_forall (by decide) (by decide)
  | [value] => exact h value List.mem_cons_self
  | first :: second :: rest =>
    have hall : Unbroken (", ".intercalate (first :: second :: rest)) :=
      .intercalate (by decide) fun t ht => (h t ht).unbroken
    exact .append (onLine_parenthesis.append hall) (.of_forall (by decide) (by decide))

namespace Expr

/-- Several expressions are written one by one. -/
theorem inlineAll_eq_map (es : List Expr) : inlineAll es = es.map inline := by
  induction es with
  | nil => rfl
  | cons e es ih =>
    rw [inlineAll, ih]
    rfl

/-- An operator does not break the line. -/
theorem unbroken_operator : ∀ op ∈ Grammar.operatorSymbols, Unbroken op.toString := by
  decide

/-- The operands of a well-formed expression are legible, and there is at least one. -/
theorem operands_legible {d : Nat} {e : Expr} (h : e.Formed (isFlat · = true) (isFlat · = true) d) :
    e.operands ≠ [] ∧ ∀ t ∈ e.operands, Legible t := by
  have hone : ∀ {t : String}, Legible t → [t] ≠ [] ∧ ∀ t' ∈ [t], Legible t' := by
    intro t ht
    refine ⟨by simp, fun t' ht' => ?_⟩
    rw [List.mem_singleton.mp ht']
    exact ht
  induction h with
  | number hv => exact hone (Binary64.literal_legible hv)
  | var hname => exact hone (.of_isFlat hname)
  | @binary d left right op declares hop _ _ _ ihl ihr =>
    have hl : Unbroken (inline left) := (Legible.nestedAssignment ihl.1 ihl.2).unbroken
    have hr : Unbroken (inline right) := (Legible.nestedAssignment ihr.1 ihr.2).unbroken
    rw [operands]
    split
    · refine ⟨by simp [ihl.1], fun t ht => ?_⟩
      exact (List.mem_append.mp ht).elim (ihl.2 t) (ihr.2 t)
    · have hsymbol := unbroken_operator op hop
      have hspace : Unbroken " " := by decide
      exact hone (.append (((((onLine_parenthesis.append hl).append hspace).append hsymbol).append hspace).append hr)
        legible_parenthesis)
  | ret _ ih =>
    have hreturn : OnLine "return " := ⟨⟨'r', rfl, by decide⟩, by decide⟩
    exact hone (.append hreturn (Legible.nestedAssignment ih.1 ih.2))
  | @call d callee arguments hcallee _ ih =>
    have harguments : Unbroken (", ".intercalate (inlineAll arguments)) := by
      rw [inlineAll_eq_map]
      refine .intercalate (by decide) fun t ht => ?_
      obtain ⟨e, he, rfl⟩ := List.mem_map.mp ht
      exact (Legible.nestedAssignment (ih e he).1 (ih e he).2).unbroken
    have hname := (Legible.of_isFlat hcallee).toOnLine
    exact hone (.append ((hname.append (by decide)).append harguments) legible_parenthesis)
  | @cond d test yes no _ _ _ ihtest ihyes ihno =>
    have htest : Unbroken (inline test) := (Legible.nestedAssignment ihtest.1 ihtest.2).unbroken
    have hyes : Unbroken (inline yes) := (Legible.nestedAssignment ihyes.1 ihyes.2).unbroken
    have hif := ((onLine_parenthesis.append hyes).append (by decide : Unbroken " if ")).append htest
    cases no with
    | none => exact hone (.of_last hif (by decide) ⟨')', rfl, by decide⟩)
    | some no =>
      have hno : Unbroken (inline no) := (Legible.nestedAssignment (ihno no rfl).1 (ihno no rfl).2).unbroken
      exact hone (.append ((hif.append (by decide : Unbroken " else ")).append hno) legible_parenthesis)
  | @block d statements _ ih =>
    refine hone (Legible.lastValue fun t ht => ?_)
    rw [inlineAll_eq_map] at ht
    obtain ⟨e, he, rfl⟩ := List.mem_map.mp ht
    exact Legible.nestedAssignment (ih e he).1 (ih e he).2

/-- An expression on one line can stand as a statement. -/
theorem inline_legible {d : Nat} {e : Expr} (h : e.Formed (isFlat · = true) (isFlat · = true) d) : Legible e.inline :=
  Legible.nestedAssignment (operands_legible h).1 (operands_legible h).2

/-- Without a word for declarations, a statement of one line is legible. -/
theorem statementText_legible {options : Options} (hk : options.declarationKeyword = none) {d : Nat} {e : Expr}
    (h : e.Formed (isFlat · = true) (isFlat · = true) d) : Legible (e.statementText options) := by
  have hinline := inline_legible h
  cases e with
  | binary left op right declares =>
    rw [statementText]
    split
    · simp only [assignment, hk]
      exact .intercalate (operands_legible h).1 (operands_legible h).2 (by decide)
    · exact hinline
  | _ => exact hinline

end Expr

end Offside
