import Multistage.CodeList

/-!
# Values of properties

What a property says about a code point.
-/

namespace Multistage

inductive Value where
  | boolean (value : Bool)
  | enumeration (ordinal : UInt32)
  | signedDelta (delta : Int)
  | codepoints (codes : CodePoints)
  deriving DecidableEq

namespace Value

/-- The kind of value and the value in brackets: `SignedDelta(-8383)`. -/
def text : Value → String
  | boolean value => s!"Boolean({value})"
  | enumeration ordinal => s!"Enumeration({ordinal})"
  | signedDelta delta => s!"SignedDelta({delta})"
  | codepoints codes => "Codepoints(" ++ codes.text ++ ")"

end Value

end Multistage
