/-!
# Powers and sums of numbers

Next to the algebraic hierarchy there are several instances for powers of numbers, and for the zero
that a sum starts from.  They agree; in this library it is always those of the core that are found, so
that its definitions do not depend on what else is imported.

* `wordPow` — powers of two in a word.
-/

namespace Multistage

@[default_instance 20000]
instance (priority := 2000) natPow : Pow Nat Nat :=
  instPowNat

instance (priority := 2000) intPow : Pow Int Nat :=
  instPowNat

instance (priority := 2000) natZero : Zero Nat :=
  Zero.ofOfNat0

/-- One, shifted by `bits` in a word of 64 bits.  The shift takes its amount modulo 64, so that this is
the power of two only for widths below. -/
def wordPow (bits : Nat) : Nat :=
  ((1 : UInt64) <<< UInt64.ofNat bits).toNat

theorem wordPow_eq (bits : Nat) : wordPow bits = 2 ^ (bits % 64) := by
  have hamount : (UInt64.ofNat bits).toNat % 64 = bits % 64 := by
    rw [UInt64.toNat_ofNat', Nat.mod_mod_of_dvd bits (by decide)]
  have hlt : 2 ^ (bits % 64) < 2 ^ 64 :=
    Nat.pow_lt_pow_right (by decide) (Nat.mod_lt bits (by decide))
  rw [wordPow, UInt64.toNat_shiftLeft, hamount, UInt64.toNat_one, Nat.shiftLeft_eq, Nat.one_mul,
    Nat.mod_eq_of_lt hlt]

theorem wordPow_of_lt {bits : Nat} (h : bits < 64) : wordPow bits = 2 ^ bits := by
  rw [wordPow_eq, Nat.mod_eq_of_lt h]

theorem wordPow_le (bits : Nat) : wordPow bits ≤ 2 ^ bits := by
  rw [wordPow_eq]
  exact Nat.pow_le_pow_right (by decide) (Nat.mod_le bits 64)

theorem wordPow_pos (bits : Nat) : 0 < wordPow bits := by
  rw [wordPow_eq]
  exact Nat.two_pow_pos _

end Multistage
