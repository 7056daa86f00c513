import Multistage.Proofs.Packing
import Multistage.Proofs.TableRoundTrip
import Multistage.SideTable

/-!
# The values of the leaves, and the largest of them

A lookup gives the default or one of the values of the leaves, so it gives no value above the largest
of these.

* `Leaf.getElem?_values`, `Leaf.length_values` — the row of all values.
* `Table.get_mem` — where the value of a code point comes from.
* `Table.get_le_largestValue` — no code point has a larger value.
* `SideTable.lt_recordCount` — every value of a table that a side table covers has a record.
-/

namespace Multistage

/-! ## The values of packed leaves -/

namespace Packing

theorem length_digits (base : Nat) : ∀ count n : Nat, (digits base count n).length = count
  | 0, _ => rfl
  | count + 1, n => by rw [digits, List.length_cons, length_digits base count]

theorem getElem?_digits (base : Nat) : ∀ {count s : Nat} (n : Nat), s < count →
    (digits base count n)[s]? = some (UInt32.ofNat (n / base ^ s % base))
  | count + 1, 0, n, _ => by simp [digits]
  | count + 1, s + 1, n, h => by
    rw [digits, List.getElem?_cons_succ, getElem?_digits base _ (Nat.lt_of_succ_lt_succ h),
      Nat.div_div_eq_div_mul, Nat.pow_succ']

theorem getElem?_unpack {bits s : Nat} (byte : UInt8) (h : s < capacity bits) :
    (unpack bits byte)[s]? = some (slot bits byte s) := by
  rw [unpack, getElem?_digits _ _ h, slot, Nat.shiftRight_eq_div_pow, ← Nat.pow_mul, Nat.mul_comm]

theorem flatMap_unpack (bits : Nat) (bytes : List UInt8) :
    bytes.flatMap (unpack bits) =
      (bytes.map fun byte => (unpack bits byte).toArray).flatMap Array.toList := by
  rw [List.flatMap_map]

theorem size_of_mem_unpacked (bits : Nat) (bytes : List UInt8) :
    ∀ b ∈ bytes.map fun byte => (unpack bits byte).toArray, b.size = capacity bits := by
  intro b hb
  obtain ⟨byte, -, rfl⟩ := List.mem_map.mp hb
  exact length_digits ..

theorem getElem?_flatMap_unpack (bits : Nat) (bytes : Array UInt8) (index : Nat) :
    (bytes.toList.flatMap (unpack bits))[index]? = get? bits bytes index := by
  unfold get?
  by_cases hcap : capacity bits = 0
  · have hnil : ∀ byte, unpack bits byte = [] := by
      intro byte
      rw [unpack, hcap, digits]
    simp [hcap, hnil]
  · have hs : index % capacity bits < capacity bits := Nat.mod_lt _ (Nat.pos_of_ne_zero hcap)
    have hindex : index / capacity bits * capacity bits + index % capacity bits = index :=
      Nat.div_add_mod' index _
    have hget := getElem?_flatMap_toList hs (index / capacity bits)
      (size_of_mem_unpacked bits bytes.toList)
    rw [hindex, ← flatMap_unpack, List.getElem?_map] at hget
    rw [if_neg hcap, hget, ← Array.getElem?_toList]
    cases bytes.toList[index / capacity bits]? with
    | none => rfl
    | some byte => simpa using getElem?_unpack byte hs

end Packing

namespace Leaf

theorem getElem?_values (leaf : Leaf) (index : Nat) : leaf.values[index]? = leaf.get? index := by
  unfold values get?
  cases leaf.cells with
  | plain values => exact Array.getElem?_toList
  | packed bytes => exact Packing.getElem?_flatMap_unpack _ bytes index

theorem length_values (leaf : Leaf) : leaf.values.length = leaf.length := by
  unfold values length
  cases leaf.cells with
  | plain values => exact Array.length_toList
  | packed bytes =>
    simp only
    rw [Packing.flatMap_unpack, length_flatMap_toList (Packing.size_of_mem_unpacked _ _),
      List.length_map, Array.length_toList]

end Leaf

/-! ## The largest value -/

theorem toNat_foldl_max : ∀ (values : List UInt32) (acc : UInt32),
    (values.foldl max acc).toNat = (values.map UInt32.toNat).foldl max acc.toNat
  | [], acc => rfl
  | v :: values, acc => by
    rw [List.foldl_cons, toNat_foldl_max values, UInt32.toNat_max, List.map_cons, List.foldl_cons]

namespace Table

theorem get_mem (t : Table) (code : UInt32) : t.get code = t.default ∨ t.get code ∈ t.leaf.values := by
  by_cases h : code.toNat < 2 ^ t.layout.keyBits
  · right
    obtain ⟨v, hv, -⟩ := t.find?_route h
    rw [t.get_of_lt h, hv, Option.getD_some]
    unfold Route.find? at hv
    split at hv
    · cases hv
    · exact List.mem_of_getElem? ((t.leaf.getElem?_values _).trans hv)
  · exact .inl (t.get_of_le (Nat.not_lt.mp h))

theorem largestValue_le_iff (t : Table) {n : Nat} :
    t.largestValue.toNat ≤ n ↔ t.default.toNat ≤ n ∧ ∀ v ∈ t.leaf.values, v.toNat ≤ n := by
  rw [largestValue, toNat_foldl_max, foldl_max_le_iff, List.forall_mem_map]

/-- **No code point has a larger value.** -/
theorem get_le_largestValue (t : Table) (code : UInt32) :
    (t.get code).toNat ≤ t.largestValue.toNat := by
  obtain ⟨hdefault, hvalues⟩ := t.largestValue_le_iff.mp (Nat.le_refl _)
  rcases t.get_mem code with h | h
  · rw [h]
    exact hdefault
  · exact hvalues _ h

end Table

theorem SideTable.lt_recordCount {side : SideTable} {t : Table} (h : side.requireCovers t = .ok ())
    (code : UInt32) : (t.get code).toNat < side.recordCount := by
  unfold requireCovers at h
  split at h
  · cases h
  · rename_i hlt
    exact Nat.lt_of_le_of_lt (t.get_le_largestValue code) (Nat.not_le.mp hlt)

end Multistage
