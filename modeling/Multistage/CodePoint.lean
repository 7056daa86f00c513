import Multistage.Text.Numerals

/-!
# Code points

A code point is a 32-bit word.  The standard domain is the 21-bit one, which holds every code point
of the Unicode code space.
-/

namespace Multistage.CodePoint

/-- Width of the standard domain in bits. -/
def standardBits : Nat := 21

/-- The usual notation: `U+` and at least four hexadecimal digits. -/
def text (code : UInt32) : String :=
  "U+" ++ Text.hexPadded 4 code.toNat

end Multistage.CodePoint
