import Multistage.Width

/-!
# Signed distances as words

A signed distance is kept in the low bits of a word, in two's complement.

* `Delta.encode` — the word of a distance, if it has room in the width.
* `Delta.decode` — the distance that the low bits of a word stand for.
-/

namespace Multistage.Delta

/-- The word of a distance between `-2 ^ (bits - 1)` and `2 ^ (bits - 1) - 1`. -/
def encode (delta : Int) (width : Width) : Except Error UInt32 :=
  let half : Int := 2 ^ (width.bits - 1)
  if -half ≤ delta ∧ delta < half then .ok (UInt32.ofNat (delta % 2 ^ width.bits).toNat)
  else .error (.valueOverflow (UInt32.ofInt delta) width.bits)

/-- The distance in the low bits of a word. -/
def decode (value : UInt32) (width : Width) : Int :=
  let low := value.toNat % 2 ^ width.bits
  if low < 2 ^ (width.bits - 1) then low else low - 2 ^ width.bits

end Multistage.Delta
