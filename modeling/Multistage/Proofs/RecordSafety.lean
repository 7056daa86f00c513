import Multistage.Proofs.LargestValue
import Multistage.Proofs.SideTableForm
import Multistage.Proofs.SmallestTable
import Multistage.Proofs.StoredForm

/-!
# Every stored number is that of a record

`Table.largestValue` looks at the cells of the leaves and at no key.  It is nevertheless a value that
some code point has: a table has no block that is not referred to, so from each block of the leaves one
can go back up to the top, and the way down again is the key of a code point.  A side table with a
record for that value has one for every code point, and no fewer records would do.

* `exists_follow` — every block of the leaves is arrived at, going down from the first stage.
* `Table.exists_get_eq` — every value of the leaves is given to some code point.
* `Table.exists_get_eq_largestValue` — so is the largest value.
* `SideTable.requireCovers_eq_ok` — what a side table has to cover, said with code points.
* `Property.records_exact` — and what a list of code points then gives.
-/

namespace Multistage

namespace Table

/-! ## Back up the stages -/

/-- **Every block of the leaves is arrived at**, with any rest of the key.  The induction is on the
stages: the block of the next level is the page number of some cell, and that cell has a block and a
field. -/
theorem exists_follow {leaf : Leaf} {stages : List Stage} (h : Linked leaf stages) {b r : Nat}
    (hb : b < leaf.blockCount) (hr : r < 2 ^ leaf.bits) :
    ∃ block key, block < topBlocks leaf stages ∧ key < 2 ^ keyBits leaf stages ∧
      follow (stepsOf stages (keyBits leaf stages)) block key = some (b, r) := by
  induction h with
  | leaf _ => exact ⟨b, r, hb, by simpa using hr, rfl⟩
  | @stage s rest hw href _ ih =>
    obtain ⟨page, key, hpage, hkey, hfollow⟩ := ih
    obtain ⟨cell, hcell⟩ := Array.mem_iff_getElem?.mp ((href page).mpr hpage)
    have hlt : cell < s.pages.size := (Array.getElem?_eq_some_iff.mp hcell).1
    have hfield : cell % 2 ^ s.bits < 2 ^ s.bits := Nat.mod_lt _ (Nat.two_pow_pos _)
    obtain ⟨hdiv, hmod⟩ := div_mod_cell (cell % 2 ^ s.bits) hkey
    refine ⟨cell / 2 ^ s.bits, cell % 2 ^ s.bits * 2 ^ keyBits leaf rest + key, ?_, ?_, ?_⟩
    · show cell / 2 ^ s.bits < s.blockCount
      rw [Nat.div_lt_iff_lt_mul (Nat.two_pow_pos _), Stage.blockCount, hw.div_mul]
      exact hlt
    · rw [keyBits_cons, Nat.pow_add]
      exact cell_lt hfield hkey
    · rw [stepsOf_cons]
      simp only [follow, hdiv, hmod, Nat.div_add_mod', hcell, hfollow]

/-- **Every value of the leaves is given to some code point.** -/
theorem exists_get_eq (t : Table) {v : UInt32} (hv : v ∈ t.leaf.values) : ∃ code, t.get code = v := by
  have hwf := t.wellFormed
  obtain ⟨index, hindex⟩ := List.mem_iff_getElem?.mp hv
  have hlt : index < t.leaf.length := by
    rw [← t.leaf.length_values]
    exact (List.getElem?_eq_some_iff.mp hindex).1
  rw [t.leaf.getElem?_values] at hindex
  have hwhole := ((linked_iff t.leaf 0 t.stages).mp hwf.linked).2.1
  have hblock : index / 2 ^ t.leaf.bits < t.leaf.blockCount := by
    rw [Nat.div_lt_iff_lt_mul (Nat.two_pow_pos _), Leaf.blockCount, hwhole.div_mul]
    exact hlt
  obtain ⟨block, key, htop, hkey, hfollow⟩ :=
    exists_follow hwf.linked hblock (Nat.mod_lt index (Nat.two_pow_pos _))
  -- the top level is a single block, so that it is block zero where the way starts
  rw [hwf.top, Nat.lt_one_iff] at htop
  rw [hwf.keyBits_eq] at hkey hfollow
  refine ⟨UInt32.ofNat key, ?_⟩
  rw [t.get_key hkey, route, Route.find?]
  simp only [← htop, hfollow, Nat.div_add_mod', hindex, Option.getD_some]

/-- Past the key there are code points, and they have the default. -/
theorem exists_get_eq_default (t : Table) : ∃ code, t.get code = t.default := by
  have hlt : 2 ^ t.layout.keyBits < UInt32.size :=
    Nat.pow_lt_pow_right (by omega) t.layout.keyBits_lt
  refine ⟨UInt32.ofNat (2 ^ t.layout.keyBits), t.get_of_le ?_⟩
  rw [UInt32.toNat_ofNat_of_lt' hlt]

/-! ## The largest value -/

end Table

theorem foldl_max_mem : ∀ (values : List UInt32) (acc : UInt32),
    values.foldl max acc = acc ∨ values.foldl max acc ∈ values
  | [], acc => .inl rfl
  | v :: values, acc => by
    have hmax : max acc v = acc ∨ max acc v = v := by
      rw [← UInt32.toNat_inj, ← UInt32.toNat_inj, UInt32.toNat_max]
      omega
    rw [List.foldl_cons]
    rcases foldl_max_mem values (max acc v) with h | h
    · rw [h]
      rcases hmax with hmax | hmax
      · exact .inl hmax
      · exact .inr (by simp [hmax])
    · exact .inr (List.mem_cons_of_mem _ h)

namespace Table

/-- **The largest value is given to some code point.** -/
theorem exists_get_eq_largestValue (t : Table) : ∃ code, t.get code = t.largestValue := by
  unfold largestValue
  rcases foldl_max_mem t.leaf.values t.default with h | h
  · rw [h]
    exact t.exists_get_eq_default
  · exact t.exists_get_eq h

end Table

/-- **A side table covers a table exactly if** the value of every code point has a record. -/
theorem SideTable.requireCovers_eq_ok (side : SideTable) (t : Table) :
    side.requireCovers t = .ok () ↔ ∀ code, (t.get code).toNat < side.recordCount := by
  constructor
  · exact side.lt_recordCount
  · intro h
    obtain ⟨code, hcode⟩ := t.exists_get_eq_largestValue
    have hlt := h code
    rw [hcode] at hlt
    unfold requireCovers
    rw [if_neg (Nat.not_le.mpr hlt)]

/-! ## Lists of code points -/

namespace SideTable

theorem lookup_of_pos (side : SideTable) {index : UInt32} (hpos : index ≠ 0)
    (hlt : index.toNat < side.recordCount) (code : UInt32) :
    ∃ r : CodeList side.capacity, side.recordCells index.toNat = row r ∧
      side.lookup index code = r.widen side.capacity_le := by
  have hne : index.toNat ≠ 0 := fun h => hpos (UInt32.toNat_inj.mp h)
  have hsize : index.toNat - 1 < side.records.size := by
    unfold recordCount at hlt
    omega
  have hrecord := Array.getElem?_eq_getElem hsize
  refine ⟨side.records[index.toNat - 1], ?_, ?_⟩
  · rw [← recordCells_succ hrecord]
    congr 1
    omega
  · unfold lookup
    rw [if_neg hpos, hrecord]

end SideTable

namespace Property

theorem ofParts_list {name : String} {table : Table} {side : Option SideTable} {report : Report}
    {p : Property} (h : ofParts name .codepointList table side report = .ok p) :
    ∃ t, side = some t ∧ t.requireCovers table = .ok () ∧
      ∀ code, p.stored code = table.get code ∧
        p.get code = .codepoints (t.lookup (table.get code) code) := by
  obtain ⟨-, hkind, htable, hside, -⟩ := ofParts_eq_ok h
  have hsome := p.isSome_sideTable
  rw [hkind, hside] at hsome
  obtain ⟨t, rfl⟩ := Option.isSome_iff_exists.mp hsome
  refine ⟨t, rfl, ?_, fun code => ?_⟩
  · rw [← htable]
    exact p.indices t hside
  · unfold get stored
    rw [hkind, hside, htable]
    exact ⟨rfl, rfl⟩

theorem exists_ofParts_list {name : String} {table : Table} {side : SideTable} (hname : name ≠ "")
    (hcovers : side.requireCovers table = .ok ()) (report : Report) :
    ∃ p, ofParts name .codepointList table (some side) report = .ok p := by
  have hindices : ∀ t ∈ some side, t.requireCovers table = .ok () := by
    intro t ht
    rw [← Option.mem_some.mp ht]
    exact hcovers
  exact ⟨_, ofParts_self ⟨name, .codepointList, table, some side, report, hname, rfl, hindices⟩⟩

/-- **Side tables cover exactly what is needed.**  The largest value of a table is the largest that a
code point has, and some code point has it.  So a side table covers a table exactly if the value of
every code point is the number of a record.  And a list of code points that is accepted gives a code
point itself where the number is zero, and otherwise the list in the record of that number, whose cells
are its length, from one to the capacity, its code points and zeros. -/
theorem records_exact :
    (∀ t : Table, (∀ code, t.get code ≤ t.largestValue) ∧ ∃ code, t.get code = t.largestValue) ∧
    (∀ (side : SideTable) (t : Table),
      side.requireCovers t = .ok () ↔ ∀ code, (t.get code).toNat < side.recordCount) ∧
    ∀ (name : String) (table : Table) (sideTable : Option SideTable) (report : Report)
      (p : Property), ofParts name .codepointList table sideTable report = .ok p →
      ∃ side, sideTable = some side ∧ ∀ code, p.stored code = table.get code ∧
        (p.stored code = 0 → p.get code = .codepoints (CodePoints.single code)) ∧
        (p.stored code ≠ 0 → (p.stored code).toNat < side.recordCount ∧
          ∃ r : CodeList side.capacity,
            side.recordCells (p.stored code).toNat = SideTable.row r ∧
            1 ≤ r.length ∧ r.length ≤ side.capacity ∧
            p.get code = .codepoints (r.widen side.capacity_le)) := by
  refine ⟨fun t => ⟨fun code => ?_, t.exists_get_eq_largestValue⟩, SideTable.requireCovers_eq_ok, ?_⟩
  · exact UInt32.le_iff_toNat_le.mpr (t.get_le_largestValue code)
  · intro name table sideTable report p h
    obtain ⟨side, hside, hcovers, hget⟩ := ofParts_list h
    refine ⟨side, hside, fun code => ?_⟩
    obtain ⟨hstored, hget⟩ := hget code
    have hlt := (side.requireCovers_eq_ok table).mp hcovers code
    rw [← hstored] at hlt hget
    refine ⟨hstored, fun hzero => ?_, fun hpos => ⟨hlt, ?_⟩⟩
    · rw [hget, hzero]
      rfl
    · obtain ⟨r, hcells, hlookup⟩ := side.lookup_of_pos hpos hlt code
      refine ⟨r, hcells, List.length_pos_iff.mpr r.codes_ne_nil, r.length_le, ?_⟩
      rw [hget, hlookup]

/-- Two of four keys have a record, which says `ss`; the others stand for themselves. -/
theorem records_exact_folding :
    ∃ table side p, Table.ofParts table.layout [⟨1, #[0, 1]⟩] ⟨1, .eight, .plain #[0, 1, 1, 0]⟩ 0 =
        .ok table ∧
      side.cells = [0, 0, 0, 2, 0x73, 0x73] ∧
      ofParts "Fold" .codepointList table (some side) {} = .ok p ∧
      (∃ code, table.get code = table.largestValue) ∧
      (∀ code, (table.get code).toNat < side.recordCount) ∧
      p.get 0 = .codepoints (CodePoints.single 0) ∧
      ∃ r : CodeList side.capacity, SideTable.row r = [2, 0x73, 0x73] ∧
        p.get 1 = .codepoints (r.widen side.capacity_le) := by
  let layout : Layout := ⟨2, [1, 1], .eight, false, by decide, by decide, by decide, by decide,
    by decide, by decide, by decide, by decide⟩
  let table : Table := ⟨layout, [⟨1, #[0, 1]⟩], ⟨1, .eight, .plain #[0, 1, 1, 0]⟩, 0,
    by decide +kernel⟩
  let side : SideTable := ⟨2, #[⟨[0x73, 0x73], by decide, by decide⟩], by decide, by decide⟩
  let p : Property := ⟨"Fold", .codepointList, table, some side, {}, by decide, rfl, by
    intro t ht
    cases ht
    rfl⟩
  have hp : ofParts "Fold" .codepointList table (some side) {} = .ok p := p.ofParts_self
  have hstored : p.stored 0 = 0 ∧ p.stored 1 = 1 := by decide
  have hcells : side.recordCells 1 = [2, 0x73, 0x73] := rfl
  obtain ⟨hlargest, hcovers, hlists⟩ := records_exact
  obtain ⟨t, ht, hget⟩ := hlists _ _ _ _ _ hp
  obtain rfl : side = t := Option.some.inj ht
  obtain ⟨-, hzero, -⟩ := hget 0
  obtain ⟨-, -, hone⟩ := hget 1
  rw [hstored.2] at hone
  obtain ⟨-, r, hrow, -, -, hr⟩ := hone (by decide)
  exact ⟨table, side, p, table.ofParts_self, rfl, hp, (hlargest table).2,
    (hcovers side table).mp (p.indices side rfl), hzero hstored.1, r, hrow.symm.trans hcells, hr⟩

end Property

end Multistage
