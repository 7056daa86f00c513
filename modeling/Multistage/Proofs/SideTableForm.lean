import Multistage.Proofs.CatalogRoundTrip
import Multistage.Proofs.ReadErrors

/-!
# Side tables as cells

A row of cells makes a side table exactly if it is the row of one, so cells and side tables determine
each other.  Stored in bytes, a side table is read back only up to the number of cells that the reader
takes; the writer knows no such number.

* `ofCells_eq_ok` — the cells of which a side table is made are its own.
* `recordCells`, `IsRecord` — the cells of one record, and what they look like.
* `decode_encode_limit` — which side tables are read back from their bytes.
* `decode_encode_oversized` — one that is not.
-/

namespace Multistage.SideTable

open Decoder

variable {capacity : Nat}

/-! ## One record -/

theorem codes_of_ofList? {codes : List UInt32} {r : CodeList capacity}
    (h : CodeList.ofList? capacity codes = some r) : r.codes = codes := by
  unfold CodeList.ofList? at h
  split at h <;> cases h
  rfl

theorem row_of_ofRow? {cells : List UInt32} {r : CodeList capacity}
    (hlength : cells.length = capacity + 1) (h : ofRow? capacity cells = some r) : row r = cells := by
  cases cells with
  | nil => cases h
  | cons length codes =>
    rw [List.length_cons, Nat.succ.injEq] at hlength
    rw [ofRow?] at h
    split at h
    · rename_i hform
      obtain ⟨hle, hzeros⟩ := hform
      have hcodes := codes_of_ofList? h
      have hcount : r.length = length.toNat := by
        rw [CodeList.length, hcodes, List.length_take, hlength, Nat.min_eq_left hle]
      have hrest : codes.drop length.toNat = List.replicate (capacity - length.toNat) 0 := by
        refine List.eq_replicate_iff.mpr ⟨by rw [List.length_drop, hlength], fun c hc => ?_⟩
        exact eq_of_beq (List.all_eq_true.mp hzeros c hc)
      unfold row
      rw [hcount, hcodes, UInt32.ofNat_toNat, ← hrest, List.take_append_drop]
    · cases h

/-- A length from one to the capacity, as many code points, and zeros. -/
def IsRecord (capacity : Nat) (cells : List UInt32) : Prop :=
  ∃ length codes, cells = length :: codes ∧ codes.length = capacity ∧
    1 ≤ length.toNat ∧ length.toNat ≤ capacity ∧ ∀ c ∈ codes.drop length.toNat, c = 0

theorem isRecord_row (hc : capacity ≤ maxCodes) (r : CodeList capacity) :
    IsRecord capacity (row r) := by
  have hlength := length_row r
  rw [row, List.length_cons, Nat.succ.injEq] at hlength
  refine ⟨_, _, rfl, hlength, ?_⟩
  rw [toNat_length hc]
  refine ⟨List.length_pos_iff.mpr r.codes_ne_nil, r.length_le, fun c h => ?_⟩
  have hdrop : (r.codes ++ List.replicate (capacity - r.length) 0).drop r.length =
      List.replicate (capacity - r.length) 0 := List.drop_left
  rw [hdrop] at h
  exact List.eq_of_mem_replicate h

/-! ## All records -/

/-- Cells that are read as records are their rows.  The induction is on the number of records. -/
theorem readRows_eq_ok : ∀ {count index : Nat} {cells : List UInt32}
    {acc records : Array (CodeList capacity)}, cells.length = count * (capacity + 1) →
      readRows capacity count index cells acc = .ok records →
      ∃ rs : List (CodeList capacity), records = acc ++ rs.toArray ∧ cells = rs.flatMap row
  | 0, _, cells, acc, records, hlength, h => by
    rw [Nat.zero_mul, List.length_eq_zero_iff] at hlength
    cases h
    exact ⟨[], by simp, by simp [hlength]⟩
  | count + 1, index, cells, acc, records, hlength, h => by
    rw [Nat.succ_mul] at hlength
    rw [readRows] at h
    split at h
    · cases h
    rename_i r hr
    have hfirst : row r = cells.take (capacity + 1) := by
      refine row_of_ofRow? ?_ hr
      rw [List.length_take]
      omega
    have hdrop : (cells.drop (capacity + 1)).length = count * (capacity + 1) := by
      rw [List.length_drop]
      omega
    obtain ⟨rs, hrecords, hcells⟩ := readRows_eq_ok hdrop h
    refine ⟨r :: rs, by simp [hrecords], ?_⟩
    rw [List.flatMap_cons, ← hcells, hfirst, List.take_append_drop]

theorem empty_eq_ok {blank : SideTable} (h : empty capacity = .ok blank) :
    ∃ hpos hle, blank = ⟨capacity, #[], hpos, hle⟩ := by
  unfold empty at h
  split at h
  · rename_i hc
    cases h
    exact ⟨hc.1, hc.2, rfl⟩
  · cases h

theorem exists_count (capacity : Nat) {cells : List UInt32}
    (h : ¬ (cells = [] ∨ cells.length % (capacity + 1) ≠ 0)) :
    ∃ count, cells.length / (capacity + 1) = count + 1 ∧
      cells.length = count * (capacity + 1) + (capacity + 1) := by
  rw [not_or, not_not] at h
  have hmul := Nat.div_mul_cancel (Nat.dvd_of_mod_eq_zero h.2)
  cases hcount : cells.length / (capacity + 1) with
  | zero =>
    rw [hcount, Nat.zero_mul] at hmul
    exact absurd (List.length_eq_zero_iff.mp hmul.symm) h.1
  | succ count =>
    rw [hcount, Nat.succ_mul] at hmul
    exact ⟨count, rfl, hmul.symm⟩

/-- **Cells make a side table exactly if they are its cells.** -/
theorem ofCells_eq_ok {cells : List UInt32} {t : SideTable} :
    ofCells capacity cells = .ok t ↔ t.capacity = capacity ∧ t.cells = cells := by
  constructor
  · intro h
    unfold ofCells at h
    split at h
    · cases h
    rename_i blank hblank
    obtain ⟨hpos, hle, rfl⟩ := empty_eq_ok hblank
    simp only at h
    split at h
    · cases h
    rename_i hwhole
    split at h
    · rename_i hzeros
      split at h
      · cases h
      rename_i records hrecords
      cases h
      obtain ⟨count, hcount, hlength⟩ := exists_count capacity hwhole
      simp only [stride, hcount, Nat.add_sub_cancel] at hzeros hrecords
      have hdrop : (cells.drop (capacity + 1)).length = count * (capacity + 1) := by
        rw [List.length_drop, hlength, Nat.add_sub_cancel]
      have hfirst : cells.take (capacity + 1) = List.replicate (capacity + 1) 0 := by
        refine List.eq_replicate_iff.mpr ⟨List.length_take_of_le (by omega), fun c hc => ?_⟩
        exact eq_of_beq (List.all_eq_true.mp hzeros c hc)
      obtain ⟨rs, rfl, hrest⟩ := readRows_eq_ok hdrop hrecords
      refine ⟨rfl, ?_⟩
      simp only [SideTable.cells, stride, Array.empty_append, ← hrest, ← hfirst,
        List.take_append_drop]
    · cases h
  · rintro ⟨rfl, rfl⟩
    exact t.ofCells_cells

/-- The cells of the record with the given number. -/
def recordCells (t : SideTable) (index : Nat) : List UInt32 :=
  (t.cells.drop (index * t.stride)).take t.stride

theorem recordCells_zero (t : SideTable) : t.recordCells 0 = List.replicate t.stride 0 := by
  unfold recordCells cells
  rw [Nat.zero_mul, List.drop_zero, List.take_left' List.length_replicate]

/-- One row out of many.  The induction is on the records. -/
theorem take_drop_flatMap_row : ∀ {rs : List (CodeList capacity)} {k : Nat} {r : CodeList capacity},
    rs[k]? = some r → ((rs.flatMap row).drop (k * (capacity + 1))).take (capacity + 1) = row r
  | first :: rs, 0, r, h => by
    rw [List.getElem?_cons_zero, Option.some.injEq] at h
    rw [Nat.zero_mul, List.drop_zero, List.flatMap_cons, List.take_left' (length_row first), h]
  | first :: rs, k + 1, r, h => by
    rw [List.getElem?_cons_succ] at h
    rw [Nat.succ_mul, Nat.add_comm (k * _), ← List.drop_drop, List.flatMap_cons,
      List.drop_left' (length_row first), take_drop_flatMap_row h]

/-- The blank record is not stored: record `k + 1` is the one at position `k`. -/
theorem recordCells_succ {t : SideTable} {k : Nat} {r : CodeList t.capacity}
    (h : t.records[k]? = some r) : t.recordCells (k + 1) = row r := by
  have hrow : t.records.toList[k]? = some r := by
    rw [Array.getElem?_toList, h]
  unfold recordCells cells
  rw [Nat.succ_mul, Nat.add_comm (k * _), ← List.drop_drop, List.drop_left' List.length_replicate]
  exact take_drop_flatMap_row hrow

theorem isRecord_recordCells (t : SideTable) {k : Nat} (hpos : 0 < k) (h : k < t.recordCount) :
    IsRecord t.capacity (t.recordCells k) := by
  obtain ⟨k, rfl⟩ := Nat.exists_eq_add_one.mpr hpos
  have hk : k < t.records.size := Nat.lt_of_succ_lt_succ h
  rw [recordCells_succ (Array.getElem?_eq_getElem hk)]
  exact isRecord_row t.capacity_le _

/-! ## As bytes -/

theorem cellCount_oversized {count : Nat} (hlt : count < 256 ^ 4) (h : Wire.maxCells < count)
    (rest : List UInt8) :
    Decoder.cellCount (Wire.number 4 count ++ rest) = .error (.format (.levelCells count)) := by
  refine (reads_number 4 hlt).bind_error ?_
  rw [if_pos h]
  rfl

theorem decode_encode_of_lt {t : SideTable} (hlt : t.cells.length < 256 ^ 4)
    (h : Wire.maxCells < t.cells.length) (rest : List UInt8) :
    decode (encode (some t) ++ rest) = .error (.format (.levelCells t.cells.length)) := by
  have hcapacity : t.capacity < 256 ^ 1 := Nat.lt_of_le_of_lt t.capacity_le (by decide)
  simp only [encode, ← t.length_cells, List.append_assoc]
  refine (reads_flag _ true).bind_error ((reads_number 1 hcapacity).bind_error ?_)
  exact bind_eq_error.mpr (.inl (cellCount_oversized hlt h _))

/-- **Which side tables are read back from their bytes.**  Every side table is made from its own cells.
Written out, if its cells can be counted in four bytes, one of up to `2 ^ 24` cells is read back
whatever follows it, and one of more is refused for the number of its cells. -/
theorem decode_encode_limit (t : SideTable) (h : t.cells.length < 2 ^ 32) (rest : List UInt8) :
    ofCells t.capacity t.cells = .ok t ∧
    (t.cells.length ≤ 2 ^ 24 → decode (encode (some t) ++ rest) = .ok (some t, rest)) ∧
    (2 ^ 24 < t.cells.length → decode (encode (some t) ++ rest) =
      .error (.format (.levelCells t.cells.length))) := by
  refine ⟨t.ofCells_cells, fun hle => ?_, fun hlt => decode_encode_of_lt h hlt rest⟩
  refine reads_decode (fun t' ht' => ?_) rest
  cases ht'
  exact hle

/-- A table of one record, followed by a byte. -/
theorem decode_encode_limit_single :
    ∃ t : SideTable, t.cells = [0, 0, 0, 2, 0x73, 0x73] ∧
      decode (encode (some t) ++ [7]) = .ok (some t, [7]) := by
  let t : SideTable := ⟨2, #[⟨[0x73, 0x73], by decide, by decide⟩], by decide, by decide⟩
  have hcells : t.cells = [0, 0, 0, 2, 0x73, 0x73] := rfl
  have hlimit := t.decode_encode_limit (by rw [hcells]; decide) [7]
  exact ⟨t, hcells, hlimit.2.1 (by rw [hcells]; decide)⟩

/-- A record for each code point below 3355443, with room for four: whatever follows the bytes of this
table, the reader refuses them. -/
theorem decode_encode_oversized :
    ∃ t : SideTable, t.capacity = 4 ∧ t.recordCount = 3355444 ∧ t.cells.length < 2 ^ 32 ∧
      ∀ rest, decode (encode (some t) ++ rest) = .error (.format (.levelCells 16777220)) := by
  let codes : Array (CodeList 4) :=
    (Array.range 3355443).map fun i => ⟨[UInt32.ofNat i], by simp, by simp⟩
  let t : SideTable := ⟨4, codes, by decide, by decide⟩
  have hrecords : t.recordCount = 3355444 := by
    simp only [t, codes, recordCount, Array.size_map, Array.size_range]
  have hlength : t.cells.length = 16777220 := by
    rw [length_cells, cellCount, hrecords]
    rfl
  have hlt : t.cells.length < 256 ^ 4 := by
    rw [hlength]
    decide
  have hlong : Wire.maxCells < t.cells.length := by
    rw [hlength]
    decide
  refine ⟨t, rfl, hrecords, hlt, fun rest => ?_⟩
  rw [decode_encode_of_lt hlt hlong, hlength]

end Multistage.SideTable
