import Multistage.Proofs.LargestValue
import Multistage.Proofs.Rebuild

/-!
# Packing changes the leaves only

The same range map under two layouts that differ in nothing but the packing of the leaves: bytes are
equal exactly if the values in them are, so both number the blocks of the key in the same way, and
every stage above the leaves comes out the same.

* `Covers.values_eq` — the block numbers and the values written out determine the values of the leaves.
* `Table.ranges_congr` — the ranges of a table depend on its domain and its values only.
* `map_counts_record` — the statistics count blocks, however the leaves are stored.
* `build_packed_plain` — packed and plain leaves compared.
-/

namespace Multistage

theorem Width.bytes_of_packable {w : Width} (h : w.packable = true) : w.bytes = 1 := by
  revert h
  cases w <;> decide

theorem Table.ranges_congr {t t' : Table} (hdomain : t.layout.domainBits = t'.layout.domainBits)
    (hget : ∀ code, t.get code = t'.get code) : t.ranges = t'.ranges := by
  rw [t.ranges_eq_foldl, t'.ranges_eq_foldl, hdomain]
  simp only [hget]

/-- What the record of a level says besides its size: the level, its width, and the number of blocks
before and after equal ones were shared. -/
def LevelReport.counts (r : LevelReport) : Nat × Nat × Nat × Nat :=
  (r.level, r.bits, r.logical, r.physical)

namespace Compilation

/-! ## Leaves under the same block numbers -/

section Leaves

variable {leaf leaf' : Leaf} {refs : Array Nat} {dense : Array UInt32}

theorem Covers.blockCount_eq (h : Covers leaf refs dense) (h' : Covers leaf' refs dense) :
    leaf.blockCount = leaf'.blockCount := by
  apply eq_of_forall_lt_iff
  intro page
  rw [← h.mem_refs, h'.mem_refs]

theorem Covers.get?_eq (h : Covers leaf refs dense) {i ref s : Nat} (href : refs[i]? = some ref)
    (hs : s < 2 ^ leaf.bits) :
    leaf.get? (ref * 2 ^ leaf.bits + s) = dense[i * 2 ^ leaf.bits + s]? := by
  obtain ⟨ref', href', hvalues⟩ := h.lookup i (Array.getElem?_eq_some_iff.mp href).1
  rw [href, Option.some.injEq] at href'
  rw [href']
  exact hvalues s hs

theorem Covers.exists_ref (h : Covers leaf refs dense) {index : Nat} (hi : index < leaf.length) :
    ∃ i : Nat, refs[i]? = some (index / 2 ^ leaf.bits) := by
  apply Array.mem_iff_getElem?.mp
  rw [h.mem_refs, Nat.div_lt_iff_lt_mul (Nat.two_pow_pos _), Leaf.blockCount, h.whole.div_mul]
  exact hi

/-- **The block numbers and the values written out determine the values of the leaves**, in whatever
cells these are. -/
theorem Covers.values_eq (h : Covers leaf refs dense) (h' : Covers leaf' refs dense)
    (hbits : leaf.bits = leaf'.bits) : leaf.values = leaf'.values := by
  have hlength : leaf.length = leaf'.length := by
    rw [← h.whole.div_mul, ← h'.whole.div_mul, ← Leaf.blockCount, ← Leaf.blockCount,
      h.blockCount_eq h', hbits]
  apply List.ext_getElem?
  intro index
  rw [Leaf.getElem?_values, Leaf.getElem?_values]
  by_cases hi : index < leaf.length
  · -- some part of the key leads to the block of this value, and there both agree with `dense`
    obtain ⟨i, href⟩ := h.exists_ref hi
    have hmod := Nat.mod_lt index (Nat.two_pow_pos leaf.bits)
    have hvalue := h.get?_eq href hmod
    rw [hbits] at href hmod hvalue
    have hvalue' := h'.get?_eq href hmod
    rw [Nat.div_add_mod'] at hvalue hvalue'
    rw [hvalue, hvalue']
  · rw [← Leaf.getElem?_values, ← Leaf.getElem?_values,
      List.getElem?_eq_none (by rw [Leaf.length_values]; omega),
      List.getElem?_eq_none (by rw [Leaf.length_values]; omega)]

/-- The records of the stages do not look at the leaves, and that of the leaves counts blocks. -/
theorem map_counts_record (hbits : leaf.bits = leaf'.bits)
    (hcount : leaf.blockCount = leaf'.blockCount) (leafBlocks : Nat) :
    ∀ (level : Nat) (layers : List Layer),
      (record leaf leafBlocks level layers).map LevelReport.counts =
        (record leaf' leafBlocks level layers).map LevelReport.counts
  | level, [] => by
    simp only [record, List.map_cons, List.map_nil, LevelReport.counts, hbits, hcount]
  | level, ⟨s, logical⟩ :: rest => by
    rw [record, record, List.map_cons, List.map_cons,
      map_counts_record hbits hcount leafBlocks (level + 1) rest]

end Leaves

end Compilation

/-! ## Layouts that differ in packing -/

/-- Layouts that are the same, or differ in the packing of the leaves only. -/
structure Layout.Alike (a b : Layout) : Prop where
  domainBits : a.domainBits = b.domainBits
  levels : a.levels = b.levels
  width : a.width = b.width

namespace Layout.Alike

variable {a b : Layout}

theorem of_ofLevels {domainBits : Nat} {levels : List Nat} {width : Width} {p q : Bool}
    (ha : ofLevels domainBits levels width p = .ok a)
    (hb : ofLevels domainBits levels width q = .ok b) : a.Alike b := by
  obtain ⟨hdomain, hlevels, hwidth, -⟩ := ofLevels_eq_ok ha
  obtain ⟨hdomain', hlevels', hwidth', -⟩ := ofLevels_eq_ok hb
  exact ⟨hdomain.trans hdomain'.symm, hlevels.trans hlevels'.symm, hwidth.trans hwidth'.symm⟩

theorem keyBits (h : a.Alike b) : a.keyBits = b.keyBits := by
  rw [Layout.keyBits, Layout.keyBits, h.levels]

theorem stageBits (h : a.Alike b) : a.stageBits = b.stageBits := by
  rw [Layout.stageBits, Layout.stageBits, h.levels]

theorem leafBits (h : a.Alike b) : a.leafBits = b.leafBits := by
  simp only [Layout.leafBits, h.levels]

end Layout.Alike

namespace Compilation

section Alike

variable {a b : Layout} {map : RangeMap}

theorem build_error_alike (hab : a.Alike b) (e : Error) :
    build a map = .error e ↔ build b map = .error e := by
  rw [build_eq_error_iff, build_eq_error_iff, hab.domainBits, hab.width]

theorem build_ok_alike (hab : a.Alike b) :
    (∃ made, build a map = .ok made) ↔ ∃ made, build b map = .ok made := by
  rw [build_eq_ok_iff, build_eq_ok_iff, hab.domainBits, hab.width]

/-- **The blocks of the key are numbered in the same way.** -/
theorem leafLevel_refs_alike (hab : a.Alike b) (hw : map.requireWidth a.width = .ok ()) :
    (leafLevel a map).2 = (leafLevel b map).2 := by
  have hw' : map.requireWidth b.width = .ok () := hab.width ▸ hw
  rw [leafLevel, leafLevel, leafOf_refs a (size_dense_key a map) (fits_dense hw),
    leafOf_refs b (size_dense_key b map) (fits_dense hw'), hab.leafBits, hab.keyBits]

theorem leafLevel_bits_alike (hab : a.Alike b) (map : RangeMap) :
    (leafLevel a map).1.bits = (leafLevel b map).1.bits := by
  rw [leafLevel, leafLevel, leafOf_bits, leafOf_bits, hab.leafBits]

theorem leafLevel_covers_alike (hab : a.Alike b) (hw : map.requireWidth a.width = .ok ()) :
    Covers (leafLevel b map).1 (leafLevel a map).2 (map.dense a.keyBits) := by
  rw [leafLevel_refs_alike hab hw, hab.keyBits]
  exact leafLevel_covers (hab.width ▸ hw)

end Alike

theorem report_build {layout : Layout} {map : RangeMap} {made : Compilation}
    (h : build layout map = .ok made) :
    made.report.levels = record (leafLevel layout map).1 (leafLevel layout map).2.size 0
      (stack layout.stageBits (leafLevel layout map).2).1 := by
  obtain ⟨hd, hw⟩ := (build_eq_ok_iff layout map).mp ⟨made, h⟩
  rw [build_eq hd hw] at h
  cases h
  rfl

/-- Bytes of the leaves of two tables with equally many blocks of leaves: packed ones hold
`cellCapacity` values each, plain ones a single value. -/
theorem leaf_bytes_packed {t t' : Table} (hab : t.layout.Alike t'.layout)
    (hpacked : t.layout.packed = true) (hplain : t'.layout.packed = false)
    (hcount : t.leaf.blockCount = t'.leaf.blockCount) :
    t.leaf.bytes * t.layout.cellCapacity = t'.leaf.bytes := by
  have hcells := t.wellFormed.cellCount_mul
  have hcells' := t'.wellFormed.cellCount_mul
  have hone : t'.layout.cellCapacity = 1 := by
    simp [Layout.cellCapacity, cellCapacity, hplain]
  have hbyte : t'.layout.width.bytes = 1 := by
    rw [← hab.width]
    exact Width.bytes_of_packable (t.layout.packable hpacked)
  rw [hone, Nat.mul_one] at hcells'
  rw [Leaf.bytes, Leaf.bytes, t.wellFormed.leaf_cellBytes, t'.wellFormed.leaf_cellBytes, hpacked,
    hplain, if_pos rfl, if_neg Bool.false_ne_true, hbyte, Nat.mul_one, Nat.mul_one, hcells, hcells',
    hcount, hab.leafBits]

/-- **Packing changes the leaves only.**  Take the layouts with packed and with plain leaves of the
same domain, levels and width, both of them accepted.  A range map is refused under both for the same
reason, or it has a table under both.  Then the tables have the same stages, the same values in their
leaves, the same value for every code point, the same ranges and the same largest value; the statistics
count the same blocks on every level; and the bytes of the packed leaves are those of the plain ones
divided, without a rest, by the number of values in a byte. -/
theorem build_packed_plain {domainBits : Nat} {levels : List Nat} {width : Width}
    {packed plain : Layout} (hpacked : Layout.ofLevels domainBits levels width true = .ok packed)
    (hplain : Layout.ofLevels domainBits levels width false = .ok plain) (map : RangeMap) :
    (∃ e, build packed map = .error e ∧ build plain map = .error e) ∨
    ∃ made made', build packed map = .ok made ∧ build plain map = .ok made' ∧
      made.table.stages = made'.table.stages ∧
      made.table.leaf.values = made'.table.leaf.values ∧
      (∀ code, made.table.get code = made'.table.get code) ∧
      made.table.ranges = made'.table.ranges ∧
      made.table.largestValue = made'.table.largestValue ∧
      made.report.levels.map LevelReport.counts = made'.report.levels.map LevelReport.counts ∧
      packed.cellCapacity ∣ made'.table.leaf.bytes ∧
      made.table.leaf.bytes = made'.table.leaf.bytes / packed.cellCapacity := by
  have hab := Layout.Alike.of_ofLevels hpacked hplain
  cases h : build packed map with
  | error e => exact .inl ⟨e, rfl, (build_error_alike hab e).mp h⟩
  | ok made =>
    obtain ⟨made', h'⟩ := (build_ok_alike hab).mp ⟨made, h⟩
    obtain ⟨-, hw, hlayout, hstages, hleaf, hdefault⟩ := build_parts h
    obtain ⟨-, -, hlayout', hstages', hleaf', hdefault'⟩ := build_parts h'
    have hrefs := leafLevel_refs_alike hab hw
    have hbits := leafLevel_bits_alike hab map
    have hcovers := leafLevel_covers hw
    have hcovers' := leafLevel_covers_alike hab hw
    have hcount := hcovers.blockCount_eq hcovers'
    have hvalues := hcovers.values_eq hcovers' hbits
    have hget : ∀ code, made.table.get code = made'.table.get code := by
      intro code
      rw [table_get h, table_get h']
    have hbytes : made.table.leaf.bytes * packed.cellCapacity = made'.table.leaf.bytes := by
      rw [← hlayout]
      apply leaf_bytes_packed
      · rw [hlayout, hlayout']
        exact hab
      · rw [hlayout, (Layout.ofLevels_eq_ok hpacked).2.2.2]
      · rw [hlayout', (Layout.ofLevels_eq_ok hplain).2.2.2]
      · rw [hleaf, hleaf', hcount]
    refine .inr ⟨made, made', rfl, h', ?_, ?_, hget, ?_, ?_, ?_, ?_, ?_⟩
    · rw [hstages, hstages', stageLevels, stageLevels, hab.stageBits, hrefs]
    · rw [hleaf, hleaf', hvalues]
    · apply Table.ranges_congr _ hget
      rw [hlayout, hlayout', hab.domainBits]
    · rw [Table.largestValue, Table.largestValue, hdefault, hdefault', hleaf, hleaf', hvalues]
    · rw [report_build h, report_build h', hab.stageBits, hrefs]
      exact map_counts_record hbits hcount _ 0 _
    · rw [← hbytes]
      exact Nat.dvd_mul_left _ _
    · rw [← hbytes, Nat.mul_div_cancel _ (Table.cellCapacity_pos packed)]

/-- Six bits under a key of seven, with four-bit values: packed in pairs, the leaves take half the
bytes. -/
theorem build_packed_plain_padded :
    ∃ packed plain map made made', Layout.ofLevels 6 [2, 2, 3] .four true = .ok packed ∧
      Layout.ofLevels 6 [2, 2, 3] .four false = .ok plain ∧
      RangeMap.ofRanges [⟨5, 5, 1⟩, ⟨17, 40, 2⟩, ⟨63, 63, 3⟩] 9 = .ok map ∧
      build packed map = .ok made ∧ build plain map = .ok made' ∧
      made.table.stages = made'.table.stages ∧
      made.table.leaf.values = made'.table.leaf.values ∧
      made.table.leaf.bytes = made'.table.leaf.bytes / 2 := by
  let packed : Layout := ⟨6, [2, 2, 3], .four, true, by decide, by decide, by decide, by decide,
    by decide, by decide, by decide, by decide⟩
  let plain : Layout := ⟨6, [2, 2, 3], .four, false, by decide, by decide, by decide, by decide,
    by decide, by decide, by decide, by decide⟩
  let map : RangeMap := ⟨[⟨5, 5, 1⟩, ⟨17, 40, 2⟩, ⟨63, 63, 3⟩], 9, by decide, by decide⟩
  have hpacked : Layout.ofLevels 6 [2, 2, 3] .four true = .ok packed := rfl
  have hplain : Layout.ofLevels 6 [2, 2, 3] .four false = .ok plain := rfl
  have hpair : packed.cellCapacity = 2 := by decide
  rcases build_packed_plain hpacked hplain map with
    ⟨e, he, -⟩ | ⟨made, made', h, h', hstages, hvalues, -, -, -, -, -, hbytes⟩
  · obtain ⟨made, h⟩ := (build_eq_ok_iff packed map).mpr ⟨rfl, rfl⟩
    rw [h] at he
    cases he
  · rw [hpair] at hbytes
    exact ⟨packed, plain, map, made, made', hpacked, hplain, rfl, h, h', hstages, hvalues, hbytes⟩

end Compilation

end Multistage
