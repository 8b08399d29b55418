/-!
# Ranges of code points

A property of characters is kept as an ascending list of closed ranges of code points. Looking a character up walks the list
and stops at the first range that ends at or above it.
-/

namespace Offside.Text

/-- The code points from `first` to `last`, both included. -/
structure CodeRange where
  first : Nat
  last : Nat
deriving DecidableEq, Repr

/-- Whether a code point lies in one of the ranges, which are in ascending order. -/
def CodeRange.covers (code : Nat) : List CodeRange → Bool
  | [] => false
  | range :: ranges => if code ≤ range.last then range.first ≤ code else covers code ranges

end Offside.Text
