/-!
# Classes of ASCII characters

The classes are numbered; every number past the last one stands for `other`.
-/

namespace Multistage

inductive AsciiClass where
  /-- Not an ASCII character. -/
  | other
  | control
  | space
  | digit
  | upper
  | lower
  | punctuation
  deriving DecidableEq, Repr

namespace AsciiClass

/-- The number of a class. -/
def ordinal : AsciiClass → UInt32
  | other => 0
  | control => 1
  | space => 2
  | digit => 3
  | upper => 4
  | lower => 5
  | punctuation => 6

/-- The class of a number. -/
def ofOrdinal (n : UInt32) : AsciiClass :=
  match n.toNat with
  | 1 => control
  | 2 => space
  | 3 => digit
  | 4 => upper
  | 5 => lower
  | 6 => punctuation
  | _ => other

theorem ofOrdinal_ordinal (c : AsciiClass) : ofOrdinal c.ordinal = c := by
  cases c <;> rfl

/-- The name of a class. -/
def name : AsciiClass → String
  | other => "Other"
  | control => "Control"
  | space => "Space"
  | digit => "Digit"
  | upper => "Upper"
  | lower => "Lower"
  | punctuation => "Punctuation"

end AsciiClass

end Multistage
