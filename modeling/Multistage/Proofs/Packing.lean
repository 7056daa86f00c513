import Multistage.Packing
import Multistage.Proofs.Sharing

/-!
# Packed values are read back

A byte is a number whose digits, in base `2 ^ bits`, are the values packed into it.  The principal
result is `get?_packAll`: the value with number `i` in the bytes of a row of values is the value with
number `i` of the row, cut to its low bits.

* `join_div_pow_mod` — the digits of a joined number.
* `slot_pack` — one byte.
* `packAll_toList` — the bytes of a row are those of its blocks of `capacity bits` values.
-/

namespace Multistage.Packing

/-! ## One byte -/

/-- Digit `s` of joined values; digits past the last value are zero. -/
theorem join_div_pow_mod {base : Nat} (hb : 0 < base) :
    ∀ (values : List UInt32) (s : Nat),
      join base values / base ^ s % base = (values[s]?.getD 0).toNat % base
  | [], s => by simp [join]
  | v :: rest, 0 => by simp [join]
  | v :: rest, s + 1 => by
    have hdiv : join base (v :: rest) / base = join base rest := by
      rw [join, Nat.add_mul_div_left _ _ hb, Nat.div_eq_of_lt (Nat.mod_lt _ hb), Nat.zero_add]
    rw [Nat.pow_succ', ← Nat.div_div_eq_div_mul, hdiv, join_div_pow_mod hb rest s,
      List.getElem?_cons_succ]

theorem join_lt {base : Nat} (hb : 0 < base) :
    ∀ values : List UInt32, join base values < base ^ values.length
  | [] => by simp [join]
  | v :: rest => by
    have hv : v.toNat % base < base := Nat.mod_lt _ hb
    have hrest : join base rest + 1 ≤ base ^ rest.length := join_lt hb rest
    calc v.toNat % base + base * join base rest
      _ < base + base * join base rest := Nat.add_lt_add_right hv _
      _ = base * (join base rest + 1) := by rw [Nat.mul_add, Nat.mul_one, Nat.add_comm]
      _ ≤ base * base ^ rest.length := Nat.mul_le_mul_left _ hrest
      _ = base ^ (v :: rest).length := by rw [List.length_cons, Nat.pow_succ']

theorem join_lt_byte {bits : Nat} {values : List UInt32} (h : values.length ≤ capacity bits) :
    join (2 ^ bits) values < 2 ^ 8 := by
  have hle : bits * values.length ≤ 8 :=
    Nat.le_trans (Nat.mul_le_mul_left bits h) (Nat.mul_div_le 8 bits)
  calc join (2 ^ bits) values
    _ < (2 ^ bits) ^ values.length := join_lt (Nat.two_pow_pos bits) values
    _ = 2 ^ (bits * values.length) := by rw [← Nat.pow_mul]
    _ ≤ 2 ^ 8 := Nat.pow_le_pow_right (by omega) hle

/-- **A slot of a packed byte** holds the low bits of its value. -/
theorem slot_pack {bits : Nat} {values : List UInt32} (h : values.length ≤ capacity bits) (s : Nat) :
    slot bits (pack bits values) s = UInt32.ofNat ((values[s]?.getD 0).toNat % 2 ^ bits) := by
  have hbyte : (pack bits values).toNat = join (2 ^ bits) values := by
    rw [pack, UInt8.toNat_ofNat']
    exact Nat.mod_eq_of_lt (join_lt_byte h)
  have hpow : 2 ^ (s * bits) = (2 ^ bits) ^ s := by rw [← Nat.pow_mul, Nat.mul_comm]
  rw [slot, hbyte, Nat.shiftRight_eq_div_pow, hpow, join_div_pow_mod (Nat.two_pow_pos bits)]

/-! ## A row of bytes -/

theorem packBytes_toList (bits : Nat) (values : Array UInt32) :
    ∀ (count start : Nat) (bytes : Array UInt8),
      (packBytes bits values count start bytes).toList = bytes.toList ++
        (Pool.blocksFrom (capacity bits) values count start).map fun b => pack bits b.toList
  | 0, _, _ => by simp [packBytes, Pool.blocksFrom]
  | count + 1, start, bytes => by
    rw [packBytes, packBytes_toList bits values count, Array.toList_push, Pool.blocksFrom]
    simp only [List.map_cons, List.append_assoc, List.singleton_append]

/-- The bytes of a row are those of its blocks, the last of which may be short. -/
theorem packAll_toList (bits : Nat) (values : Array UInt32) :
    (packAll bits values).toList =
      (Pool.blocksFrom (capacity bits) values
        ((values.size + capacity bits - 1) / capacity bits) 0).map fun b => pack bits b.toList := by
  rw [packAll, packBytes_toList]
  rfl

theorem size_packAll (bits : Nat) (values : Array UInt32) :
    (packAll bits values).size = (values.size + capacity bits - 1) / capacity bits := by
  rw [← Array.length_toList, packAll_toList, List.length_map, Pool.length_blocksFrom]

theorem size_packAll_of_mul {bits n : Nat} {values : Array UInt32} (hc : 0 < capacity bits)
    (h : values.size = n * capacity bits) : (packAll bits values).size = n := by
  rw [size_packAll, h, Nat.add_sub_assoc hc, Nat.add_comm, Nat.add_mul_div_right _ _ hc,
    Nat.div_eq_of_lt (Nat.sub_lt hc Nat.one_pos), Nat.zero_add]

/-- **Packed values are read back**, each cut to its low bits. -/
theorem get?_packAll {bits i : Nat} {values : Array UInt32} (hc : capacity bits ≠ 0)
    (hi : i < values.size) :
    get? bits (packAll bits values) i = some (UInt32.ofNat (values[i].toNat % 2 ^ bits)) := by
  obtain ⟨c, hcap⟩ : ∃ c, c = capacity bits := ⟨_, rfl⟩
  have hpos : 0 < c := by omega
  have hdm : c * (i / c) + i % c = i := Nat.div_add_mod i c
  have hmod : i % c < c := Nat.mod_lt i hpos
  have hbyte : i / c < (values.size + c - 1) / c := by
    rw [Nat.div_lt_iff_lt_mul hpos]
    have := Nat.lt_div_mul_add hpos (a := values.size + c - 1)
    omega
  have hget : (packAll bits values)[i / c]? =
      some (pack bits (values.extract (i / c * c) (i / c * c + c)).toList) := by
    rw [← Array.getElem?_toList, packAll_toList, ← hcap, List.getElem?_map,
      Pool.getElem?_blocksFrom c values 0 hbyte, Nat.zero_add]
    rfl
  have hlen : (values.extract (i / c * c) (i / c * c + c)).toList.length ≤ capacity bits := by
    rw [Array.length_toList, Array.size_extract, ← hcap]
    omega
  have hval : (values.extract (i / c * c) (i / c * c + c)).toList[i % c]? = some values[i] := by
    rw [Nat.mul_comm] at hdm
    rw [Array.getElem?_toList, Array.getElem?_extract, if_pos (by omega), hdm,
      Array.getElem?_eq_getElem hi]
  rw [get?, if_neg hc, ← hcap, hget, Option.map_some, slot_pack hlen, hval, Option.getD_some]

end Multistage.Packing
