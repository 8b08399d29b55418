/-!
# Options

The choices that a caller has about the output.
-/

namespace Offside

/-- Choices about the output. -/
structure Options where
  /-- How many spaces one level of indentation has. -/
  indentWidth : Nat := 4
  /-- A word to write in front of declarations. The empty word still brings its space with it. -/
  declarationKeyword : Option String := none
  /-- The name under which expressions outside functions are kept. -/
  globalName : String := "__global"
deriving DecidableEq, Repr, Inhabited

/-- The column of a line at a level. The width and the level are words of 64 bits, and so is their product: what does not fit into a
word is lost. -/
def Options.column (options : Options) (level : Nat) : Nat := options.indentWidth * level % Nat.pow 2 64

/-- The blanks in front of a line at a level. -/
def Options.indentation (options : Options) (level : Nat) : String :=
  String.ofList (List.replicate (options.column level) ' ')

/-- There is no blank in front of a line that is not nested, whatever the width. -/
@[simp] theorem Options.indentation_zero (options : Options) : options.indentation 0 = "" := rfl

end Offside
