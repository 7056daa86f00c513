import Multistage.Proofs.BuildSafety
import Multistage.Proofs.SmallestTable

/-!
# Reported sizes are the sizes

The records of a build are filled in while the levels are made, out of order and from arrays that
change on the way.  The sizes of a table are computed from the table alone, and its bytes come from
yet another function.  All three agree.

* `Table.levelBytes_mul` — what a level takes, from its blocks and the width of its cells.
* `report_eq` — the records of a build are those of its finished levels.
* `length_encode` — a table is written in the bytes of its levels, six for each level and thirteen
  more.
* `report_sizes` — the records of a build, and the bytes of every table.
-/

namespace Multistage

namespace Table

/-- Bytes of a cell of a level. -/
def cellBytes (t : Table) (level : Nat) : Nat :=
  match t.stages[level]? with
  | some s => s.cellBytes
  | none => t.leaf.cellBytes

/-- Bytes of all cells of a level. -/
def levelBytes (t : Table) (level : Nat) : Nat :=
  match t.stages[level]? with
  | some s => s.bytes
  | none => t.leaf.bytes

/-- Number of places of a block that share a cell of a level. -/
def cellShare (t : Table) (level : Nat) : Nat :=
  if level = t.layout.stageCount then t.layout.cellCapacity else 1

theorem cellShare_pos (t : Table) (level : Nat) : 0 < t.cellShare level := by
  unfold cellShare
  split
  · exact cellCapacity_pos t.layout
  · exact Nat.one_pos

theorem level_cases (t : Table) {level bits : Nat} (h : t.layout.levels[level]? = some bits) :
    (∃ s, t.stages[level]? = some s ∧ s.bits = bits ∧ level ≠ t.layout.stageCount) ∨
      t.stages[level]? = none ∧ t.layout.leafBits = bits ∧ level = t.layout.stageCount := by
  have hle := t.layout.lt_depth_iff.mp (List.getElem?_eq_some_iff.mp h).1
  have hlen := t.stages_length
  by_cases hl : level = t.layout.stageCount
  · right
    subst hl
    rw [t.layout.getElem?_levels_stageCount, Option.some.injEq] at h
    exact ⟨List.getElem?_eq_none (by omega), h, rfl⟩
  · left
    have hstage : level < t.stages.length := by omega
    have hbits : t.layout.stageBits[level]? = some bits := by
      rwa [← t.layout.stageBits_append, List.getElem?_append_left
        (by rw [t.layout.length_stageBits]; omega)] at h
    rw [← t.wellFormed.stage_bits, List.getElem?_map, List.getElem?_eq_getElem hstage,
      Option.map_some, Option.some.injEq] at hbits
    exact ⟨_, List.getElem?_eq_getElem hstage, hbits, hl⟩

/-- **What a level takes**: a cell for each place of its blocks, or for as many as share one. -/
theorem levelBytes_mul (t : Table) {level bits : Nat} (h : t.layout.levels[level]? = some bits) :
    t.levelBytes level * t.cellShare level =
      t.cellBytes level * t.blockCount level * 2 ^ bits := by
  rcases t.level_cases h with ⟨s, hget, rfl, hl⟩ | ⟨hget, rfl, hl⟩
  · have hwhole := ((linked_iff t.leaf 0 t.stages).mp t.wellFormed.linked).1 s
      (List.mem_of_getElem? hget)
    have hcells : s.blockCount * 2 ^ s.bits = s.pages.size := hwhole.div_mul
    simp only [levelBytes, cellBytes, blockCount, cellShare, hget, if_neg hl, Nat.mul_one]
    rw [Nat.mul_assoc, hcells, Stage.bytes, pageBytes, Stage.cellBytes, Nat.mul_comm]
  · simp only [levelBytes, cellBytes, blockCount, cellShare, hget, if_pos hl]
    rw [Nat.mul_assoc, ← t.wellFormed.cellCount_mul, Leaf.bytes, Nat.mul_comm t.leaf.cellCount,
      Nat.mul_assoc]

end Table

/-! ## Bytes of the written form -/

namespace Wire

theorem length_stage (s : Stage) : (stage s).length = 5 + s.bytes := by
  simp [stage, Stage.bytes, pageBytes, Stage.cellBytes, ← Nat.add_assoc]

theorem length_leaf (l : Leaf) : (leaf l).length = 4 + l.bytes := by
  unfold leaf leafCells Leaf.bytes Leaf.cellCount Leaf.cellBytes
  cases l.cells <;> simp

theorem length_layout (l : Layout) (default : UInt32) :
    (layout l default).length = 14 + l.depth := by
  have hlevels : (l.levels.flatMap (number 1)).length = l.depth := by
    simp [Layout.depth]
  simp only [layout, tableMark, List.length_append, length_number, hlevels, List.length_cons,
    List.length_nil]
  omega

end Wire

namespace Table

theorem length_flatMap_stage : ∀ stages : List Stage,
    (stages.flatMap Wire.stage).length = 5 * stages.length + (stages.map Stage.bytes).sum
  | [] => rfl
  | s :: rest => by
    rw [List.flatMap_cons, List.length_append, Wire.length_stage, length_flatMap_stage rest,
      List.length_cons, List.map_cons, List.sum_cons]
    omega

/-- **The written form of a table**: its levels, six bytes for each of them and thirteen more. -/
theorem length_encode (t : Table) : t.encode.length = 13 + 6 * t.layout.depth + t.bytes := by
  have hdepth := t.layout.depth_eq
  rw [encode, List.length_append, List.length_append, Wire.length_layout, length_flatMap_stage,
    Wire.length_leaf, t.stages_length, bytes]
  omega

end Table

namespace Compilation

/-! ## The records of a build -/

variable {layout : Layout} {map : RangeMap} {made : Compilation}

theorem report_eq (h : build layout map = .ok made) :
    made.report = .ofRecords layout.depth
      (expected layout (leafLevel layout map).1 (leafLevel layout map).2) := by
  obtain ⟨hd, hw, -⟩ := build_parts h
  rw [build_eq hd hw] at h
  cases h
  exact (ofRecords_expected ..).symm

theorem expected_logical (hw : map.requireWidth layout.width = .ok ()) {level : Nat}
    (hl : level < layout.depth) :
    (expected layout (leafLevel layout map).1 (leafLevel layout map).2 level).logical =
      2 ^ layout.bitsAbove level := by
  have hrefs := size_leafLevel_refs hw
  have hle := layout.lt_depth_iff.mp hl
  rw [layout.bitsAbove_eq hl]
  by_cases hleaf : level = layout.stageCount
  · rw [hleaf, expected_leaf, ← layout.length_stageBits, List.take_length]
    exact hrefs
  · have hstages : level < layout.stageCount := by omega
    obtain ⟨bits, -, -, hstage, htake, -⟩ := exists_stageBits hstages
    obtain ⟨-, hlogical, -⟩ :=
      expected_blocks (leafLevel layout map).1 (leafLevel layout map).2 hstage
    rw [hlogical, size_stack_drop hrefs, htake, List.sum_append, List.sum_singleton, Nat.pow_add,
      Nat.mul_div_cancel _ (Nat.two_pow_pos bits)]

theorem expected_table (h : build layout map = .ok made) (level : Nat) :
    let s := expected layout (leafLevel layout map).1 (leafLevel layout map).2 level
    s.physical = made.table.blockCount level ∧ s.cellBytes = made.table.cellBytes level ∧
      s.bytes = made.table.levelBytes level := by
  obtain ⟨-, -, -, hstages, hleaf, -⟩ := build_parts h
  simp only [expected, Table.blockCount, Table.cellBytes, Table.levelBytes, hstages, hleaf,
    stageLevels, stagesOf, List.getElem?_map]
  cases (stack layout.stageBits (leafLevel layout map).2).1[level]? with
  | none => exact ⟨rfl, rfl, rfl⟩
  | some layer => exact ⟨rfl, rfl, rfl⟩

theorem blockCount_le_keys (h : build layout map = .ok made) {level : Nat}
    (hl : level < layout.depth) : made.table.blockCount level ≤ 2 ^ layout.bitsAbove level := by
  rw [blockCount_build h hl, ← segments_eq layout map level, ← Pool.length_blocks]
  exact length_eraseDups_le _

theorem record_bytes (leaf : Leaf) (leafBlocks : Nat) : ∀ (level : Nat) (layers : List Layer),
    ((record leaf leafBlocks level layers).map (·.bytes)).sum =
      ((layers.map (·.stage)).map Stage.bytes).sum + leaf.bytes
  | _, [] => by simp [record]
  | level, l :: rest => by
    have ih := record_bytes leaf leafBlocks (level + 1) rest
    simp only [record, List.map_cons, List.sum_cons, ih]
    omega

theorem report_bytes (h : build layout map = .ok made) : made.report.bytes = made.table.bytes := by
  obtain ⟨hd, hw, -⟩ := build_parts h
  rw [build_eq hd hw] at h
  cases h
  exact record_bytes ..

theorem expected_bits {level bits : Nat} (leaf : Leaf) (refs : Array Nat)
    (hleaf : leaf.bits = layout.leafBits) (h : layout.levels[level]? = some bits) :
    (expected layout leaf refs level).bits = bits := by
  by_cases hl : level = layout.stageCount
  · subst hl
    rw [layout.getElem?_levels_stageCount, Option.some.injEq] at h
    rw [expected_leaf, hleaf, h]
  · have hle := layout.lt_depth_iff.mp (List.getElem?_eq_some_iff.mp h).1
    obtain ⟨b, -, hlevel, hstage, -⟩ := exists_stageBits (by omega : level < layout.stageCount)
    rw [hlevel, Option.some.injEq] at h
    rw [(expected_blocks leaf refs hstage).1, h]

/-- **Reported sizes are the sizes.**  A build, which fills in its records in two passes, reports
each level once: its number, its width, the keys above it, which each have a block before equal ones
are shared, the blocks that are left, and what these take.  The total is that of the table.  And
every table is written in its bytes, six for each level and thirteen more. -/
theorem report_sizes :
    (∀ layout map made, build layout map = .ok made →
      guardedBuild layout map = some (.ok made) ∧
      made.report.levels.length = layout.depth ∧
      (∀ k bits, layout.levels[k]? = some bits → ∃ s, made.report.levels[k]? = some s ∧
        s.level = k ∧ s.bits = bits ∧ s.logical = 2 ^ layout.bitsAbove k ∧
        s.physical = made.table.blockCount k ∧ s.physical ≤ s.logical ∧
        s.cellBytes = made.table.cellBytes k ∧
        made.table.cellShare k ∣ s.cellBytes * s.physical * 2 ^ bits ∧
        s.bytes = s.cellBytes * s.physical * 2 ^ bits / made.table.cellShare k) ∧
      made.report.bytes = made.table.bytes) ∧
    ∀ t : Table, t.encode.length = 13 + 6 * t.layout.depth + t.bytes := by
  refine ⟨fun layout map made h => ?_, Table.length_encode⟩
  obtain ⟨-, hw, hlayout, -⟩ := build_parts h
  have hreport := report_eq h
  refine ⟨h ▸ guardedBuild_eq layout map, ?_, ?_, report_bytes h⟩
  · rw [hreport, Report.ofRecords, List.length_map, List.length_range]
  · intro k bits hbits
    have hk : k < layout.depth := (List.getElem?_eq_some_iff.mp hbits).1
    have hlogical := expected_logical hw hk
    obtain ⟨hphysical, hcell, hbytes⟩ := expected_table h k
    have hmul := made.table.levelBytes_mul (hlayout ▸ hbits)
    have hle := blockCount_le_keys h hk
    rw [← hphysical, ← hcell, ← hbytes] at hmul
    refine ⟨_, ?_, expected_level layout (leafLevel layout map).1 (leafLevel layout map).2 k,
      expected_bits _ _ (leafOf_bits layout _) hbits, hlogical, hphysical, ?_, hcell,
      ⟨_, hmul.symm.trans (Nat.mul_comm _ _)⟩, ?_⟩
    · rw [hreport, Report.ofRecords, List.getElem?_map, List.getElem?_range hk]
      rfl
    · rw [hphysical, hlogical]
      exact hle
    · rw [← hmul, Nat.mul_div_cancel _ (made.table.cellShare_pos k)]

/-- Three levels with packed leaves: sixteen keys above the leaves, and two values to a byte. -/
theorem report_sizes_packed :
    ∃ layout map made, Layout.ofLevels 6 [2, 2, 3] .four true = .ok layout ∧
      RangeMap.ofRanges [⟨5, 5, 1⟩, ⟨17, 40, 2⟩, ⟨63, 63, 3⟩] 9 = .ok map ∧
      build layout map = .ok made ∧ made.report.levels.length = 3 ∧
      (∃ s, made.report.levels[2]? = some s ∧ s.bits = 3 ∧ s.logical = 16 ∧
        s.physical = made.table.blockCount 2 ∧
        s.bytes = s.cellBytes * s.physical * 2 ^ 3 / made.table.cellShare 2) ∧
      made.report.bytes = made.table.bytes ∧
      made.table.encode.length = 13 + 6 * made.table.layout.depth + made.table.bytes := by
  let layout : Layout := ⟨6, [2, 2, 3], .four, true, by decide, by decide, by decide, by decide,
    by decide, by decide, by decide, by decide⟩
  let map : RangeMap := ⟨[⟨5, 5, 1⟩, ⟨17, 40, 2⟩, ⟨63, 63, 3⟩], 9, by decide, by decide⟩
  obtain ⟨made, h⟩ := (build_eq_ok_iff layout map).mpr ⟨rfl, rfl⟩
  obtain ⟨-, hlength, hlevels, hbytes⟩ := report_sizes.1 layout map made h
  obtain ⟨s, hs, -, hbits, hlogical, hphysical, -, -, -, hsize⟩ := hlevels 2 3 rfl
  exact ⟨layout, map, made, rfl, rfl, h, hlength, ⟨s, hs, hbits, hlogical, hphysical, hsize⟩,
    hbytes, report_sizes.2 made.table⟩

end Compilation

end Multistage
