import Multistage.Arith
import Multistage.Pattern.CharSet

/-!
# Intervals of characters as ranges of bytes

In UTF-8 a character is one to four bytes.  An interval of characters is divided into intervals whose
characters are those that have each byte in a range of its own.

* `ByteRange.sequences` — the ranges of bytes of an interval.
-/

namespace Multistage

/-- The bytes from `first` to `last`, both included. -/
structure ByteRange where
  first : UInt8
  last : UInt8
  deriving DecidableEq, Repr

namespace ByteRange

/-- An interval divided after a number that is not its last. -/
def cutAfter (c : Nat) (i : Interval) : List Interval :=
  if i.first ≤ c ∧ c < i.last then [⟨i.first, c⟩, ⟨c + 1, i.last⟩] else [i]

/-- The intervals without the surrogates. -/
def withoutSurrogates (i : Interval) : List Interval :=
  i.minus ⟨0xD800, 0xDFFF⟩

/-- The intervals whose characters have the same number of bytes. -/
def sameLength (i : Interval) : List Interval :=
  ((withoutSurrogates i).flatMap (cutAfter 0x7F)).flatMap fun i =>
    (cutAfter 0x7FF i).flatMap (cutAfter 0xFFFF)

/-- Divide an interval into whole blocks and what is in front of them and behind.  Each of the given
numbers of bits is a size of blocks, the smaller ones first; the blocks of one size are divided by the
next. -/
def blocks : List Nat → Interval → List Interval
  | [], i => [i]
  | bits :: more, i =>
    let size := 2 ^ bits
    if i.first / size = i.last / size then [i]
    else
      let first := (i.first + size - 1) / size * size
      let next := (i.last + 1) / size * size
      (if i.first < first then [⟨i.first, first - 1⟩] else []) ++
        (if first < next then blocks more ⟨first, next - 1⟩ else []) ++
        (if next ≤ i.last then [⟨next, i.last⟩] else [])

/-- The ranges from each byte of one character to that of another. -/
def ofEnds (i : Interval) : List ByteRange :=
  List.zipWith (⟨·, ·⟩) (String.utf8EncodeChar (Char.ofNat i.first))
    (String.utf8EncodeChar (Char.ofNat i.last))

/-- The ranges of bytes of an interval, in order. -/
def sequences (i : Interval) : List (List ByteRange) :=
  (sameLength i).flatMap fun i =>
    if i.last < 0x80 then [ofEnds i] else (blocks [6, 12, 18] i).map ofEnds

end ByteRange

end Multistage
