import Multistage.Delta
import Multistage.Proofs.LookupSafety

/-!
# Distances and their words

The words of a width and the distances that have room in it determine each other.  A word is the
remainder of its distance, which is what masking the low bits leaves; the distance comes back from the
word by extending the sign, which two shifts do.

* `Delta.HasRoom` — the distances of a width.
* `encode_eq_ok` — which distances have a word, and which word.
* `decode_word`, `word_decode` — there and back, both ways.
* `word_eq_and`, `decode_eq_shift` — the same with masks and shifts.
-/

namespace Multistage

namespace Width

theorem two_pow_bits (w : Width) : (2 : Int) ^ w.bits = 2 * 2 ^ (w.bits - 1) := by
  cases w <;> rfl

theorem bits_le (w : Width) : w.bits ≤ 32 := by
  cases w <;> decide

theorem two_pow_bits_le (w : Width) : (2 : Int) ^ w.bits ≤ UInt32.size := by
  cases w <;> decide

theorem fits_iff_lt (w : Width) (v : UInt32) : w.fits v = true ↔ (v.toNat : Int) < 2 ^ w.bits := by
  rw [w.fits_iff, ← Int.ofNat_lt, Int.natCast_pow]
  rfl

end Width

namespace Delta

/-- The distance is one of those that the words of the width stand for. -/
def HasRoom (delta : Int) (w : Width) : Prop :=
  -2 ^ (w.bits - 1) ≤ delta ∧ delta < 2 ^ (w.bits - 1)

/-- The word of a distance: its remainder. -/
def word (delta : Int) (w : Width) : UInt32 :=
  UInt32.ofNat (delta % 2 ^ w.bits).toNat

variable {delta : Int} {w : Width} {v : UInt32}

/-- **Exactly the distances that have room are encoded.** -/
theorem encode_eq_ok : encode delta w = .ok v ↔ HasRoom delta w ∧ v = word delta w := by
  by_cases h : HasRoom delta w
  · have hencode : encode delta w = .ok (word delta w) := if_pos h
    rw [hencode, Except.ok.injEq]
    exact ⟨fun hv => ⟨h, hv.symm⟩, fun hv => hv.2.symm⟩
  · have hencode : encode delta w = .error (.valueOverflow (UInt32.ofInt delta) w.bits) := if_neg h
    rw [hencode]
    simp [h]

theorem toNat_word (delta : Int) (w : Width) : ((word delta w).toNat : Int) = delta % 2 ^ w.bits := by
  have hpos : (0 : Int) < 2 ^ w.bits := Int.pow_pos (by decide)
  have hnonneg := Int.emod_nonneg delta (Int.ne_of_gt hpos)
  have hlt := Int.emod_lt_of_pos delta hpos
  have hle := w.two_pow_bits_le
  rw [word, UInt32.toNat_ofNat_of_lt' (by omega), Int.toNat_of_nonneg hnonneg]

theorem fits_word (delta : Int) (w : Width) : w.fits (word delta w) = true := by
  rw [w.fits_iff_lt, toNat_word]
  exact Int.emod_lt_of_pos delta (Int.pow_pos (by decide))

/-- The word of a distance that has room: a negative one is counted back from the end. -/
theorem toNat_word_of_hasRoom (h : HasRoom delta w) :
    ((word delta w).toNat : Int) = if 0 ≤ delta then delta else delta + 2 ^ w.bits := by
  have htwo := w.two_pow_bits
  obtain ⟨hlo, hhi⟩ := h
  rw [toNat_word]
  split
  · exact Int.emod_eq_of_lt (by omega) (by omega)
  · -- one whole turn leads from a negative distance into the upper half
    rw [← Int.add_emod_right]
    exact Int.emod_eq_of_lt (by omega) (by omega)

theorem decode_of_fits (h : w.fits v = true) :
    decode v w = if (v.toNat : Int) < 2 ^ (w.bits - 1) then (v.toNat : Int)
      else v.toNat - 2 ^ w.bits := by
  have hlow : v.toNat % 2 ^ w.bits = v.toNat := Nat.mod_eq_of_lt ((w.fits_iff v).mp h)
  have hhalf : v.toNat < 2 ^ (w.bits - 1) ↔ (v.toNat : Int) < 2 ^ (w.bits - 1) := by
    rw [← Int.ofNat_lt, Int.natCast_pow]
    rfl
  simp only [decode, hlow, hhalf]

/-- **There and back**, from a distance. -/
theorem decode_word (h : HasRoom delta w) : decode (word delta w) w = delta := by
  have htwo := w.two_pow_bits
  rw [decode_of_fits (fits_word delta w), toNat_word_of_hasRoom h]
  obtain ⟨hlo, hhi⟩ := h
  by_cases hnonneg : 0 ≤ delta
  · rw [if_pos hnonneg, if_pos hhi]
  · rw [if_neg hnonneg, if_neg (by omega)]
    omega

theorem hasRoom_decode (h : w.fits v = true) : HasRoom (decode v w) w := by
  have htwo := w.two_pow_bits
  have hlt := (w.fits_iff_lt v).mp h
  rw [decode_of_fits h]
  unfold HasRoom
  split <;> omega

/-- **There and back**, from a word. -/
theorem word_decode (h : w.fits v = true) : word (decode v w) w = v := by
  have htwo := w.two_pow_bits
  have hlt := (w.fits_iff_lt v).mp h
  apply UInt32.toNat_inj.mp
  rw [← Int.ofNat_inj, toNat_word_of_hasRoom (hasRoom_decode h), decode_of_fits h]
  split <;> split <;> omega

/-! ## Masks and shifts -/

theorem word_eq_and (delta : Int) (w : Width) :
    word delta w = UInt32.ofInt delta &&& allOnes w.bits := by
  have hdvd : (2 : Int) ^ w.bits ∣ 2 ^ 32 := by cases w <;> decide
  have hmod : ((UInt32.ofInt delta).toNat : Int) = delta % 2 ^ 32 := by
    have hlt := Int.emod_lt_of_pos delta (by decide : (0 : Int) < 2 ^ 32)
    have hnonneg := Int.emod_nonneg delta (by decide : (2 : Int) ^ 32 ≠ 0)
    rw [UInt32.ofInt, UInt32.toNat_ofNat_of_lt' (by simp only [UInt32.size]; omega),
      Int.toNat_of_nonneg hnonneg]
  apply UInt32.toNat_inj.mp
  rw [Table.toNat_and_allOnes _ w.bits_le, ← Int.ofNat_inj, toNat_word, Int.natCast_emod, hmod,
    Int.natCast_pow]
  exact (Int.emod_emod_of_dvd delta hdvd).symm

/-- The sign is extended by shifting the low bits to the top and back. -/
theorem decode_eq_shift (v : UInt32) (w : Width) :
    decode v w = ((v <<< UInt32.ofNat (32 - w.bits)).toBitVec.sshiftRight (32 - w.bits)).toInt := by
  have hlt := v.toNat_lt
  unfold decode
  rw [BitVec.toInt_sshiftRight, BitVec.toInt_eq_toNat_cond, UInt32.toNat_toBitVec,
    UInt32.toNat_shiftLeft, Int.shiftRight_eq_div_pow]
  cases w <;> simp [Width.bits, Nat.shiftLeft_eq] <;> split_ifs <;> omega

end Delta

end Multistage
