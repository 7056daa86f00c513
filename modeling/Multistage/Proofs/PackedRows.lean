import Multistage.Proofs.LargestValue
import Multistage.Proofs.Numbering
import Mathlib.Algebra.Order.Floor.Div
import Mathlib.Data.Set.Function

/-!
# Rows of values and rows of bytes

Packing cuts each value to its low bits and puts as many of them into a byte as have room.  Where the
bits of a byte divide evenly among its values nothing is left over, so the bytes can be any, and packing
and unpacking undo each other.

* `packWord`, `toUInt8_packWord` — a packed byte, made with masks, shifts and unions of bits.
* `slot_eq_and` — a slot of a byte, read with a shift and a mask.
* `getElem?_packAll` — the bytes of a row of values.
* `get?_packAll_of_le` — the slots past the last value.
* `unpackAll`, `packAll_unpackAll`, `unpackAll_packAll` — there and back, both ways.
* `packing_lossless` — what packing keeps, and when it can be undone.
-/

namespace Multistage.Packing

variable {bits : Nat}

theorem capacity_pos (hpos : 1 ≤ bits) (hle : bits ≤ 8) : 0 < capacity bits :=
  Nat.div_pos hle hpos

theorem mul_bits_le_byte {n : Nat} (h : n ≤ capacity bits) : n * bits ≤ 8 :=
  Nat.le_trans (Nat.mul_le_mul_right bits h) (Nat.div_mul_le_self 8 bits)

/-! ## Masks and shifts -/

/-- Put the low bits of a value, given with its place, into a word. -/
def putSlot (bits : Nat) (word : UInt32) (entry : UInt32 × Nat) : UInt32 :=
  word ||| ((entry.1 &&& allOnes bits) <<< UInt32.ofNat (entry.2 * bits))

/-- The low bits of all values, each shifted to its place. -/
def packWord (bits : Nat) (values : List UInt32) : UInt32 :=
  values.zipIdx.foldl (putSlot bits) 0

/-- A place above all bits of the word: nothing is overwritten, and nothing is lost. -/
theorem toNat_putSlot {word v : UInt32} {k : Nat} (hpos : 1 ≤ bits)
    (hword : word.toNat < 2 ^ (k * bits)) (hroom : (k + 1) * bits ≤ 32) :
    (putSlot bits word (v, k)).toNat = word.toNat + 2 ^ (k * bits) * (v.toNat % 2 ^ bits) := by
  rw [Nat.succ_mul] at hroom
  have hplace : (UInt32.ofNat (k * bits)).toNat % 32 = k * bits := by
    rw [UInt32.toNat_ofNat_of_lt' (Nat.lt_of_lt_of_le (by omega) (by decide : 32 ≤ UInt32.size))]
    exact Nat.mod_eq_of_lt (by omega)
  have hlow : v.toNat % 2 ^ bits < 2 ^ bits := Nat.mod_lt _ (Nat.two_pow_pos bits)
  have hfits : 2 ^ (k * bits) * (v.toNat % 2 ^ bits) < 2 ^ 32 :=
    calc 2 ^ (k * bits) * (v.toNat % 2 ^ bits)
      _ < 2 ^ (k * bits) * 2 ^ bits := Nat.mul_lt_mul_of_pos_left hlow (Nat.two_pow_pos _)
      _ = 2 ^ (k * bits + bits) := (Nat.pow_add ..).symm
      _ ≤ 2 ^ 32 := Nat.pow_le_pow_right (by omega) hroom
  have hor := Nat.two_pow_add_eq_or_of_lt hword (v.toNat % 2 ^ bits)
  rw [putSlot, UInt32.toNat_or, UInt32.toNat_shiftLeft, hplace, Table.toNat_and_allOnes _ (by omega),
    Nat.shiftLeft_eq, Nat.mul_comm, Nat.mod_eq_of_lt hfits, Nat.or_comm, ← hor, Nat.add_comm]

/-- **A run of values** from place `k` on, put into a word with nothing there yet. -/
theorem toNat_foldl_putSlot (hpos : 1 ≤ bits) : ∀ (values : List UInt32) {k : Nat} {word : UInt32},
    word.toNat < 2 ^ (k * bits) → (k + values.length) * bits ≤ 32 →
    ((values.zipIdx k).foldl (putSlot bits) word).toNat =
      word.toNat + 2 ^ (k * bits) * join (2 ^ bits) values
  | [], _, _, _, _ => by simp [join]
  | v :: rest, k, word, hword, hroom => by
    have hfirst : (k + 1) * bits ≤ (k + (v :: rest).length) * bits :=
      Nat.mul_le_mul_right bits (by rw [List.length_cons]; omega)
    have hput := toNat_putSlot (v := v) hpos hword (Nat.le_trans hfirst hroom)
    have hlow : v.toNat % 2 ^ bits < 2 ^ bits := Nat.mod_lt _ (Nat.two_pow_pos bits)
    have hnext : (putSlot bits word (v, k)).toNat < 2 ^ ((k + 1) * bits) := by
      rw [hput, Nat.succ_mul, Nat.pow_add]
      calc word.toNat + 2 ^ (k * bits) * (v.toNat % 2 ^ bits)
        _ < 2 ^ (k * bits) + 2 ^ (k * bits) * (v.toNat % 2 ^ bits) := Nat.add_lt_add_right hword _
        _ = 2 ^ (k * bits) * (v.toNat % 2 ^ bits + 1) := by rw [Nat.mul_succ, Nat.add_comm]
        _ ≤ 2 ^ (k * bits) * 2 ^ bits := Nat.mul_le_mul_left _ hlow
    have ih := toNat_foldl_putSlot hpos rest hnext
      (by rwa [Nat.add_assoc, Nat.add_comm 1, ← List.length_cons])
    rw [List.zipIdx_cons, List.foldl_cons, ih, hput, join, Nat.succ_mul, Nat.pow_add, Nat.mul_add,
      Nat.mul_assoc, Nat.add_assoc]

/-- **A packed byte** is what masks, shifts and unions of bits make of its values. -/
theorem toUInt8_packWord (hpos : 1 ≤ bits) {values : List UInt32}
    (h : values.length ≤ capacity bits) : (packWord bits values).toUInt8 = pack bits values := by
  have hroom := mul_bits_le_byte h
  have hrun : (packWord bits values).toNat =
      (0 : UInt32).toNat + 2 ^ (0 * bits) * join (2 ^ bits) values :=
    toNat_foldl_putSlot hpos values (by simp) (by rw [Nat.zero_add]; omega)
  rw [Nat.zero_mul, Nat.pow_zero, Nat.one_mul, UInt32.toNat_zero, Nat.zero_add] at hrun
  rw [pack, ← hrun]
  rfl

theorem slot_eq_and (hpos : 1 ≤ bits) (byte : UInt8) {s : Nat} (hs : s < capacity bits) :
    slot bits byte s = (byte.toUInt32 >>> UInt32.ofNat (s * bits)) &&& allOnes bits := by
  have hroom := mul_bits_le_byte hs
  rw [Nat.succ_mul] at hroom
  apply UInt32.toNat_inj.mp
  have hlt : byte.toNat / 2 ^ (s * bits) % 2 ^ bits < UInt32.size :=
    Nat.lt_of_le_of_lt (Nat.mod_le _ _)
      (Nat.lt_of_le_of_lt (Nat.div_le_self _ _) (Nat.lt_trans byte.toNat_lt (by decide)))
  rw [slot, Nat.shiftRight_eq_div_pow, UInt32.toNat_ofNat_of_lt' hlt,
    Table.toNat_and_allOnes _ (by omega), Table.toNat_shiftRight_ofNat _ (by omega),
    UInt8.toNat_toUInt32]

/-! ## The bytes of a row of values -/

variable {values : Array UInt32} {bytes : Array UInt8}

theorem getElem?_packAll {k : Nat} (hk : k < (packAll bits values).size) :
    (packAll bits values)[k]? = some (pack bits
      (values.extract (k * capacity bits) (k * capacity bits + capacity bits)).toList) := by
  rw [size_packAll] at hk
  rw [← Array.getElem?_toList, packAll_toList, List.getElem?_map, Pool.getElem?_blocksFrom _ _ _ hk,
    Nat.zero_add, Option.map_some]

theorem length_extract_le (start : Nat) :
    (values.extract start (start + capacity bits)).toList.length ≤ capacity bits := by
  rw [Array.length_toList, Array.size_extract]
  omega

theorem size_packAll_eq_ceilDiv : (packAll bits values).size = values.size ⌈/⌉ capacity bits := by
  rw [size_packAll, Nat.ceilDiv_eq_add_pred_div]

/-- **The slots past the last value** are zero. -/
theorem get?_packAll_of_le {i : Nat} (hc : 0 < capacity bits) (hi : values.size ≤ i)
    (hlt : i < (packAll bits values).size * capacity bits) :
    get? bits (packAll bits values) i = some 0 := by
  have hbyte : i / capacity bits < (packAll bits values).size := (Nat.div_lt_iff_lt_mul hc).mpr hlt
  have hdm := Nat.div_add_mod' i (capacity bits)
  have hpast : (values.extract (i / capacity bits * capacity bits)
      (i / capacity bits * capacity bits + capacity bits)).toList[i % capacity bits]? = none := by
    apply List.getElem?_eq_none
    rw [Array.length_toList, Array.size_extract]
    omega
  rw [get?, if_neg (Nat.ne_of_gt hc), getElem?_packAll hbyte, Option.map_some,
    slot_pack (length_extract_le _), hpast]
  simp

theorem get?_of_le {i : Nat} (hi : bytes.size * capacity bits ≤ i) : get? bits bytes i = none := by
  unfold get?
  split
  · rfl
  · rename_i hc
    have hbyte : bytes.size ≤ i / capacity bits :=
      (Nat.le_div_iff_mul_le (Nat.pos_of_ne_zero hc)).mpr hi
    rw [Array.getElem?_eq_none hbyte, Option.map_none]

/-! ## There and back -/

/-- The values of a row of bytes. -/
def unpackAll (bits : Nat) (bytes : Array UInt8) : Array UInt32 :=
  (bytes.toList.flatMap (unpack bits)).toArray

theorem getElem?_unpackAll (bits : Nat) (bytes : Array UInt8) (i : Nat) :
    (unpackAll bits bytes)[i]? = get? bits bytes i := by
  rw [unpackAll, List.getElem?_toArray, getElem?_flatMap_unpack]

theorem size_unpackAll (bits : Nat) (bytes : Array UInt8) :
    (unpackAll bits bytes).size = bytes.size * capacity bits := by
  rw [unpackAll, List.size_toArray, flatMap_unpack, length_flatMap_toList (size_of_mem_unpacked _ _),
    List.length_map, Array.length_toList]

/-- The digits of a number below the power of the base that they reach determine it. -/
theorem join_digits {base : Nat} (hb : 0 < base) :
    ∀ {count n : Nat}, n < base ^ count → n < 2 ^ 32 → join base (digits base count n) = n
  | 0, n, h, _ => by
    rw [Nat.pow_zero] at h
    rw [digits, join]
    omega
  | count + 1, n, h, hword => by
    have hdigit : (UInt32.ofNat (n % base)).toNat % base = n % base := by
      rw [UInt32.toNat_ofNat_of_lt' (Nat.lt_of_le_of_lt (Nat.mod_le _ _) hword), Nat.mod_mod]
    have hrest : n / base < base ^ count := by
      rw [Nat.div_lt_iff_lt_mul hb, ← Nat.pow_succ]
      exact h
    rw [digits, join, hdigit, join_digits hb hrest (Nat.lt_of_le_of_lt (Nat.div_le_self _ _) hword),
      Nat.mod_add_div]

/-- **A byte whose bits divide evenly** among its values is packed from them again. -/
theorem pack_unpack (h : bits ∣ 8) (byte : UInt8) : pack bits (unpack bits byte) = byte := by
  have hall : byte.toNat < (2 ^ bits) ^ capacity bits := by
    rw [← Nat.pow_mul, capacity, Nat.mul_div_cancel' h]
    exact byte.toNat_lt
  rw [pack, unpack, join_digits (Nat.two_pow_pos bits) hall (Nat.lt_trans byte.toNat_lt (by decide)),
    UInt8.ofNat_toNat]

theorem extract_unpackAll {k : Nat} (hk : k < bytes.size) :
    ((unpackAll bits bytes).extract (k * capacity bits) (k * capacity bits + capacity bits)).toList =
      unpack bits bytes[k] := by
  have hsize := size_unpackAll bits bytes
  have hcell : k * capacity bits + capacity bits ≤ bytes.size * capacity bits := by
    rw [← Nat.succ_mul]
    exact Nat.mul_le_mul_right _ hk
  apply List.ext_getElem?
  intro s
  rw [Array.getElem?_toList]
  by_cases hs : s < capacity bits
  · obtain ⟨hdiv, hmod⟩ := div_mod_cell k hs
    rw [Array.getElem?_extract, if_pos (by omega), getElem?_unpackAll, get?, if_neg (by omega), hdiv,
      hmod, Array.getElem?_eq_getElem hk, Option.map_some, getElem?_unpack _ hs]
  · rw [Array.getElem?_eq_none (by rw [Array.size_extract]; omega),
      List.getElem?_eq_none (by rw [unpack, length_digits]; omega)]

/-- **Bytes are packed from their values again** if their bits divide evenly. -/
theorem packAll_unpackAll (hpos : 1 ≤ bits) (h : bits ∣ 8) (bytes : Array UInt8) :
    packAll bits (unpackAll bits bytes) = bytes := by
  have hc := capacity_pos hpos (Nat.le_of_dvd (by decide) h)
  have hsize : (packAll bits (unpackAll bits bytes)).size = bytes.size :=
    size_packAll_of_mul hc (size_unpackAll bits bytes)
  apply Array.ext_getElem?
  intro k
  by_cases hk : k < bytes.size
  · rw [getElem?_packAll (by rwa [hsize]), extract_unpackAll hk, pack_unpack h,
      Array.getElem?_eq_getElem hk]
  · rw [Array.getElem?_eq_none (by omega), Array.getElem?_eq_none (by omega)]

/-- **Values that have room and fill whole bytes** are unpacked from these again. -/
theorem unpackAll_packAll (hc : 0 < capacity bits) {n : Nat} (hsize : values.size = n * capacity bits)
    (hfit : ∀ v ∈ values, v.toNat < 2 ^ bits) : unpackAll bits (packAll bits values) = values := by
  apply Array.ext_getElem?
  intro i
  rw [getElem?_unpackAll]
  by_cases hi : i < values.size
  · rw [get?_packAll (Nat.ne_of_gt hc) hi, Nat.mod_eq_of_lt (hfit _ (Array.getElem_mem hi)),
      UInt32.ofNat_toNat, Array.getElem?_eq_getElem hi]
  · rw [get?_of_le (by rw [size_packAll_of_mul hc hsize]; omega), Array.getElem?_eq_none (by omega)]

theorem lt_of_mem_unpackAll {v : UInt32} (h : v ∈ unpackAll bits bytes) : v.toNat < 2 ^ bits := by
  obtain ⟨i, hi⟩ := Array.mem_iff_getElem?.mp h
  rw [getElem?_unpackAll, get?] at hi
  split at hi
  · cases hi
  · obtain ⟨byte, -, rfl⟩ := Option.map_eq_some_iff.mp hi
    exact Nat.lt_of_le_of_lt (Nat.mod_le _ _) (Nat.mod_lt _ (Nat.two_pow_pos bits))

/-- **Packing is a bijection** between the values that have room and fill `n` bytes, and the rows of
`n` bytes. -/
theorem bijOn_packAll (hpos : 1 ≤ bits) (h : bits ∣ 8) (n : Nat) :
    Set.BijOn (packAll bits)
      {values | values.size = n * capacity bits ∧ ∀ v ∈ values, v.toNat < 2 ^ bits}
      {bytes | bytes.size = n} := by
  have hc := capacity_pos hpos (Nat.le_of_dvd (by decide) h)
  refine Set.InvOn.bijOn (⟨?_, ?_⟩ : Set.InvOn (unpackAll bits) _ _ _) ?_ ?_
  · exact fun values hv => unpackAll_packAll hc hv.1 hv.2
  · exact fun bytes _ => packAll_unpackAll hpos h bytes
  · exact fun values hv => size_packAll_of_mul hc hv.1
  · intro bytes hb
    exact ⟨by rw [size_unpackAll, hb], fun v hv => lt_of_mem_unpackAll hv⟩

/-- **Packing loses nothing but high bits.**  Values of one to eight bits are packed into as many bytes
as have room for them, each byte the union of the low bits of its values, shifted to their places.  Each
value is read back by a shift and a mask, cut to its low bits; the slots after the last value are zero,
and there are none after the last byte.  If the bits of a byte divide evenly among its values, any bytes
are packed from their values again, and packing is a bijection between the values that have room and fill
`n` bytes, and the rows of `n` bytes. -/
theorem packing_lossless {bits : Nat} (hpos : 1 ≤ bits) (hle : bits ≤ 8) :
    (∀ values : Array UInt32, ∃ bytes, packAll? bits values = some bytes ∧
      bytes.size = values.size ⌈/⌉ capacity bits ∧
      (∀ k < bytes.size, bytes[k]? = some (packWord bits
        (values.extract (k * capacity bits) (k * capacity bits + capacity bits)).toList).toUInt8) ∧
      (∀ i v, values[i]? = some v →
        get? bits bytes i = some (UInt32.ofNat (v.toNat % 2 ^ bits))) ∧
      (∀ i, values.size ≤ i → i < bytes.size * capacity bits → get? bits bytes i = some 0) ∧
      ∀ i, bytes.size * capacity bits ≤ i → get? bits bytes i = none) ∧
    (∀ byte, ∀ s < capacity bits,
      slot bits byte s = (byte.toUInt32 >>> UInt32.ofNat (s * bits)) &&& allOnes bits) ∧
    (bits ∣ 8 → (∀ bytes, packAll? bits (unpackAll bits bytes) = some bytes) ∧
      ∀ n, Set.BijOn (packAll bits)
        {values | values.size = n * capacity bits ∧ ∀ v ∈ values, v.toNat < 2 ^ bits}
        {bytes | bytes.size = n}) := by
  have hc := capacity_pos hpos hle
  have hpack : ∀ values, packAll? bits values = some (packAll bits values) :=
    fun values => if_neg (Nat.ne_of_gt hc)
  refine ⟨fun values => ⟨_, hpack values, size_packAll_eq_ceilDiv, fun k hk => ?_, fun i v hv => ?_,
    fun i => get?_packAll_of_le hc, fun i => get?_of_le⟩, fun byte s => slot_eq_and hpos byte,
    fun h => ⟨fun bytes => ?_, bijOn_packAll hpos h⟩⟩
  · rw [getElem?_packAll hk, toUInt8_packWord hpos (length_extract_le _)]
  · obtain ⟨hi, rfl⟩ := Array.getElem?_eq_some_iff.mp hv
    exact get?_packAll (Nat.ne_of_gt hc) hi
  · rw [hpack, packAll_unpackAll hpos h]

/-- Two values of three bits have room in a byte, with two bits to spare: the first value loses its high
bit, and the second byte has a slot without a value.  Four values of two bits fill a byte. -/
theorem packing_lossless_thirds : (∃ bytes, packAll? 3 #[9, 2, 7] = some bytes ∧ bytes.size = 2 ∧
      bytes[1]? = some (packWord 3 [7]).toUInt8 ∧ get? 3 bytes 0 = some 1 ∧ get? 3 bytes 2 = some 7 ∧
      get? 3 bytes 3 = some 0 ∧ get? 3 bytes 4 = none) ∧
    packAll? 2 (unpackAll 2 #[0xE4]) = some #[0xE4] := by
  obtain ⟨hrow, -, -⟩ := @packing_lossless 3 (by decide) (by decide)
  obtain ⟨-, -, heven⟩ := @packing_lossless 2 (by decide) (by decide)
  obtain ⟨bytes, hbytes, hsize, hpacked, hread, hzero, hnone⟩ := hrow #[9, 2, 7]
  have htwo : bytes.size = 2 := hsize.trans (by decide)
  refine ⟨⟨bytes, hbytes, htwo, hpacked 1 (by omega), hread 0 9 rfl, hread 2 7 rfl,
    hzero 3 (by decide) ?_, hnone 4 ?_⟩, (heven (by decide)).1 #[0xE4]⟩
  · rw [htwo]
    decide
  · rw [htwo]
    decide

end Multistage.Packing
