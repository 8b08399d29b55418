import Offside.Token.Basic

/-!
# The grammar as a relation

`Derives x ts us` says that the tokens `ts` begin with a piece that the symbol `x` of the grammar stands for, and that `us` are the
tokens behind that piece. The relation knows nothing of how a source is read: it is ambiguous where the language is, and a piece
need not be the longest one. Only a block that nothing closes looks at what is behind it, which is a function or the end of the
input.
-/

namespace Offside.Grammar

/-- The symbols of the grammar. -/
inductive Symbol where
  /-- Any number of separators. -/
  | separators
  | name
  /-- One or more items with commas between them. -/
  | items (item : Symbol)
  /-- Items with commas between them, or nothing. -/
  | list (item : Symbol)
  | expression
  /-- Any number of operators with an operand behind each. -/
  | operations
  | primary
  /-- The other branch of a condition, or nothing. -/
  | otherwise
  /-- The inside of a block, with what ends it. -/
  | statements
  | block
  | function
  | program
deriving DecidableEq, Repr

/-- What holds of all characters of a list is decided by going through the list, not through all characters. -/
instance (priority := high) decidableForallMemChars (cs : List Char) (p : Char → Prop) [DecidablePred p] :
    Decidable (∀ c ∈ cs, p c) := List.decidableBAll p cs

/-- The characters of the binary operators. -/
def operatorSymbols : List Char := ['=', '<', '>', '+', '-', '*', '/']

/-- The character of every operator is among those of the grammar. -/
theorem symbol_mem_operatorSymbols : ∀ op ∈ Operator.all, op.symbol ∈ operatorSymbols := by
  decide

/-- The tokens `ts` begin with a piece that the symbol stands for, and `us` are the tokens behind it. -/
inductive Derives : Symbol → List Token → List Token → Prop where
  | noSeparator (ts : List Token) : Derives .separators ts ts
  | separator {ts us : List Token} : Derives .separators ts us → Derives .separators (.statementEnd :: ts) us
  | name (n : String) (ts : List Token) : Derives .name (.identifier n :: ts) ts
  | lastItem {x : Symbol} {ts us : List Token} : Derives x ts us → Derives (.items x) ts us
  | item {x : Symbol} {ts us vs : List Token} :
      Derives x ts (.punct ',' :: us) → Derives (.items x) us vs → Derives (.items x) ts vs
  | emptyList (x : Symbol) (ts : List Token) : Derives (.list x) ts ts
  | list {x : Symbol} {ts us : List Token} : Derives (.items x) ts us → Derives (.list x) ts us
  | expression {ts us vs : List Token} :
      Derives .primary ts us → Derives .operations us vs → Derives .expression ts vs
  | noOperation (ts : List Token) : Derives .operations ts ts
  | operation {c : Char} {ts us vs : List Token} : c ∈ operatorSymbols →
      Derives .primary ts us → Derives .operations us vs → Derives .operations (.punct c :: ts) vs
  | number (value : Binary64) (ts : List Token) : Derives .primary (.number value :: ts) ts
  | bareName (n : String) (ts : List Token) : Derives .primary (.identifier n :: ts) ts
  | call (n : String) {ts us : List Token} :
      Derives (.list .expression) ts (.punct ')' :: us) → Derives .primary (.identifier n :: .punct '(' :: ts) us
  | memberCall (n m : String) {ts us : List Token} : Derives (.list .expression) ts (.punct ')' :: us) →
      Derives .primary (.identifier n :: .punct '.' :: .identifier m :: .punct '(' :: ts) us
  | ret {ts us : List Token} : Derives .expression ts us → Derives .primary (.keyword .return_ :: ts) us
  | declaration (n : String) {ts us : List Token} :
      Derives .expression ts us → Derives .primary (.keyword .var :: .identifier n :: .punct '=' :: ts) us
  | condition {ts us vs ws xs ys : List Token} : Derives .expression ts (.punct ')' :: us) → Derives .separators us vs →
      Derives .expression vs ws → Derives .separators ws xs → Derives .otherwise xs ys →
      Derives .primary (.keyword .if_ :: .punct '(' :: ts) ys
  | noOtherwise (ts : List Token) : Derives .otherwise ts ts
  | otherwise {ts us vs : List Token} :
      Derives .separators ts us → Derives .expression us vs → Derives .otherwise (.keyword .else_ :: ts) vs
  | grouping {ts us : List Token} : Derives .expression ts (.punct ')' :: us) → Derives .primary (.punct '(' :: ts) us
  | primaryBlock {ts us : List Token} : Derives .block ts us → Derives .primary ts us
  | block {ts us : List Token} : Derives .statements ts us → Derives .block (.punct '{' :: ts) us
  | closed (ts : List Token) : Derives .statements (.punct '}' :: ts) ts
  | beforeFunction (ts : List Token) : Derives .statements (.keyword .function :: ts) (.keyword .function :: ts)
  | beforeEnd : Derives .statements [] []
  | statementSeparator {ts us : List Token} : Derives .statements ts us → Derives .statements (.statementEnd :: ts) us
  | statement {ts us vs : List Token} :
      Derives .expression ts us → Derives .statements us vs → Derives .statements ts vs
  | function (n : String) {ts us vs ws : List Token} : Derives (.list .name) ts (.punct ')' :: us) →
      Derives .separators us vs → Derives .block vs ws →
      Derives .function (.keyword .function :: .identifier n :: .punct '(' :: ts) ws
  | programEnd : Derives .program [] []
  | programSeparator {ts us : List Token} : Derives .program ts us → Derives .program (.statementEnd :: ts) us
  | programFunction {ts us vs : List Token} :
      Derives .function ts us → Derives .program us vs → Derives .program ts vs
  | programExpression {ts us vs : List Token} :
      Derives .expression ts us → Derives .program us vs → Derives .program ts vs

namespace Derives

/-- Two runs of operations make up one. -/
theorem operations_append {ts us vs : List Token} (h : Derives .operations ts us) (h' : Derives .operations us vs) :
    Derives .operations ts vs := by
  generalize hx : Symbol.operations = x at h
  induction h with
  | noOperation => exact h'
  | operation hc hp _ _ ih => exact .operation hc hp (ih h' rfl)
  | _ => cases hx

/-- All separators in front may be taken. -/
theorem separators_dropWhile (ts : List Token) : Derives .separators ts (ts.dropWhile (· = .statementEnd)) := by
  induction ts with
  | nil => exact .noSeparator _
  | cons t ts ih =>
    by_cases ht : t = .statementEnd
    · subst ht
      simpa using Derives.separator ih
    · simpa [ht] using Derives.noSeparator (t :: ts)

end Derives

end Offside.Grammar
