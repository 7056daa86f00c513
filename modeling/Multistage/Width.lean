import Multistage.Error

/-!
# Widths of values

The values of a property have 1, 2, 4, 8, 16 or 32 bits.  Values narrower than a byte can be packed
several to a byte.

* `allOnes` — the largest word of a given number of bits.
* `Width.ofBits` — the width with that number of bits, if there is one.
* `Width.fits` — the value can be written in that width.
-/

namespace Multistage

/-- The word whose `bits` low bits are set, all of them from 32 on. -/
def allOnes (bits : Nat) : UInt32 :=
  UInt32.ofNat (2 ^ bits - 1)

inductive Width where
  | one
  | two
  | four
  | eight
  | sixteen
  | thirtyTwo
  deriving DecidableEq, Repr

namespace Width

/-- Number of bits of a value. -/
def bits : Width → Nat
  | one => 1
  | two => 2
  | four => 4
  | eight => 8
  | sixteen => 16
  | thirtyTwo => 32

/-- The width with the given number of bits. -/
def ofBits : Nat → Except Error Width
  | 1 => .ok one
  | 2 => .ok two
  | 4 => .ok four
  | 8 => .ok eight
  | 16 => .ok sixteen
  | 32 => .ok thirtyTwo
  | bits => .error (.config (.unsupportedWidth bits))

theorem ofBits_bits (w : Width) : ofBits w.bits = .ok w := by
  cases w <;> rfl

/-- Bytes of a cell that holds one value. -/
def bytes : Width → Nat
  | sixteen => 2
  | thirtyTwo => 4
  | _ => 1

/-- The largest value of the width. -/
def greatest (w : Width) : UInt32 :=
  allOnes w.bits

/-- The value can be written in the width. -/
def fits (w : Width) (value : UInt32) : Bool :=
  decide (value ≤ w.greatest)

theorem fits_iff (w : Width) (value : UInt32) :
    w.fits value = true ↔ value.toNat < 2 ^ w.bits := by
  rw [fits, decide_eq_true_iff, UInt32.le_iff_toNat_le]
  have := value.toNat_lt
  cases w <;> simp [greatest, allOnes, bits] <;> omega

/-- Several values of the width have room in a byte. -/
def packable (w : Width) : Bool :=
  decide (w.bits < 8)

end Width

end Multistage
