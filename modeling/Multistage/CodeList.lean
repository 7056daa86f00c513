import Multistage.CodePoint

/-!
# Short lists of code points

`CodeList limit` is a list of at least one and at most `limit` code points.  A `CodePoints` is what a
property can give for a code point: up to four of them.
-/

namespace Multistage

/-- From one to `limit` code points. -/
structure CodeList (limit : Nat) where
  codes : List UInt32
  codes_ne_nil : codes ≠ []
  length_le : codes.length ≤ limit
  deriving DecidableEq

/-- Most code points a property gives for one. -/
def maxCodes : Nat := 4

/-- The code points that stand for one. -/
abbrev CodePoints := CodeList maxCodes

namespace CodeList

/-- The list, if it is neither empty nor too long. -/
def ofList? (limit : Nat) (codes : List UInt32) : Option (CodeList limit) :=
  if h : codes ≠ [] ∧ codes.length ≤ limit then some ⟨codes, h.1, h.2⟩ else none

theorem ofList?_codes {limit : Nat} (l : CodeList limit) : ofList? limit l.codes = some l := by
  simp [ofList?, l.codes_ne_nil, l.length_le]

/-- The same list where longer ones are allowed. -/
def widen {limit limit' : Nat} (h : limit ≤ limit') (l : CodeList limit) : CodeList limit' :=
  ⟨l.codes, l.codes_ne_nil, Nat.le_trans l.length_le h⟩

/-- Number of code points. -/
def length {limit : Nat} (l : CodeList limit) : Nat :=
  l.codes.length

/-- `["U+0073", "U+0073"]` -/
def text {limit : Nat} (l : CodeList limit) : String :=
  Text.quotedList (l.codes.map CodePoint.text)

end CodeList

/-- A code point that stands for itself. -/
def CodePoints.single (code : UInt32) : CodePoints :=
  ⟨[code], by simp, by simp [maxCodes]⟩

end Multistage
