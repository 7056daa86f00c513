import Multistage.CodePoint

/-!
# Ranges of code points with one value

`CodeRange` is the closed interval from `first` to `last`, all of whose code points have the same
value.
-/

namespace Multistage

/-- The code points from `first` to `last`, both included, and their common value. -/
structure CodeRange where
  first : UInt32
  last : UInt32
  value : UInt32
  deriving DecidableEq, Repr

namespace CodeRange

/-- The code point lies between the ends. -/
def contains (r : CodeRange) (code : UInt32) : Bool :=
  decide (r.first ≤ code ∧ code ≤ r.last)

@[simp]
theorem contains_iff (r : CodeRange) (code : UInt32) :
    r.contains code = true ↔ r.first ≤ code ∧ code ≤ r.last := by
  simp [contains]

/-- `U+0041..U+005A = 0x20` -/
def text (r : CodeRange) : String :=
  CodePoint.text r.first ++ ".." ++ CodePoint.text r.last ++ " = " ++ Text.hexMarked r.value.toNat

end CodeRange

end Multistage
