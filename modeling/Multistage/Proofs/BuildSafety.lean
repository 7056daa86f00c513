import Multistage.Proofs.BlockSharing
import Multistage.Proofs.LevelRecords

/-!
# Building is safe

Building writes out all values, cuts arrays into blocks, gives the blocks numbers, and looks up
levels and records by number.  The guarded functions do this with every access, shift, difference
and assertion made explicit, where `none` is one that fails.  They work from the leaves up: a level
is shared and its blocks are recorded before the next, the top is taken as it is, and the sizes are
recorded in a second pass over all levels.

* `Pool.guardedShare_eq` — no block of an array of whole blocks is short, and each gets a number.
* `guardedStage_eq`, `guardedStages_eq` — one level up, and all of them.
* `guardedBuild_eq` — building never fails an assertion and never goes outside.
* `build_outcome` — when a table can be built, and what is reported when it cannot.
-/

namespace Multistage

/-! ## Writing out all values -/

namespace RangeMap

/-- Write a range over cells numbered by code point.  The cells that it takes have to start no later
than right after the last of them, and to end inside. -/
def guardedOverlay (cells : Array UInt32) (r : CodeRange) : Option (Array UInt32) :=
  if cells.size = 0 then none
  else
    let last := min r.last.toNat (cells.size - 1)
    if cells.size ≤ r.first.toNat then some cells
    else if last + 1 < r.first.toNat ∨ cells.size < last + 1 then none
    else some (fill r.value (last + 1 - r.first.toNat) r.first.toNat cells)

/-- The values of the keys of a width, in order.  The shift of a word by the width has to be defined,
and an array of that many values has to exist. -/
def guardedDense (m : RangeMap) (keyBits : Nat) : Option (Array UInt32) :=
  if 64 ≤ keyBits ∨ 2 ^ 63 ≤ 4 * wordPow keyBits then none
  else m.ranges.foldlM guardedOverlay (Array.replicate (wordPow keyBits) m.default)

/-- The check of the domain.  The shift of a word by its width has to be defined. -/
def guardedRequireDomain (m : RangeMap) (domainBits : Nat) : Option (Except Error Unit) :=
  if 64 ≤ domainBits then none else some (m.requireDomain domainBits)

theorem guardedOverlay_eq {cells : Array UInt32} {r : CodeRange} (hcells : cells.size ≠ 0)
    (hr : r.first ≤ r.last) : guardedOverlay cells r = some (overlay cells r) := by
  have hle := UInt32.le_iff_toNat_le.mp hr
  unfold guardedOverlay overlay
  rw [if_neg hcells]
  by_cases hpast : cells.size ≤ r.first.toNat
  · have hcount : min (r.last.toNat + 1) cells.size - r.first.toNat = 0 := by omega
    rw [if_pos hpast, hcount]
    rfl
  · have hlast : min r.last.toNat (cells.size - 1) + 1 = min (r.last.toNat + 1) cells.size := by
      omega
    simp only [hlast, if_neg hpast]
    rw [if_neg (by omega)]

theorem foldlM_guardedOverlay : ∀ {ranges : List CodeRange} {cells : Array UInt32},
    (∀ r ∈ ranges, r.first ≤ r.last) → cells.size ≠ 0 →
      ranges.foldlM guardedOverlay cells = some (ranges.foldl overlay cells)
  | [], _, _, _ => rfl
  | r :: rest, cells, hle, hcells => by
    have hcells' : (overlay cells r).size ≠ 0 := by rwa [size_overlay]
    have hrest := foldlM_guardedOverlay (fun r' hr' => hle r' (List.mem_cons_of_mem r hr')) hcells'
    rw [List.foldlM_cons, guardedOverlay_eq hcells (hle r (by simp))]
    exact hrest

/-- Up to 60 bits there is an array of all values, of four bytes each. -/
theorem four_mul_wordPow_lt {keyBits : Nat} (h : keyBits ≤ 60) : 4 * wordPow keyBits < 2 ^ 63 := by
  have hle : 2 ^ keyBits ≤ 2 ^ 60 := Nat.pow_le_pow_right (by decide) h
  rw [wordPow_of_lt (by omega)]
  omega

/-- **Writing out all values never leaves the cells.** -/
theorem guardedDense_eq (m : RangeMap) {keyBits : Nat} (h : keyBits ≤ 60) :
    m.guardedDense keyBits = some (m.dense keyBits) := by
  have hpos := wordPow_pos keyBits
  have hbytes := four_mul_wordPow_lt h
  unfold guardedDense
  rw [if_neg (by omega)]
  exact foldlM_guardedOverlay m.first_le_last (by rw [Array.size_replicate]; omega)

theorem guardedRequireDomain_eq (m : RangeMap) {domainBits : Nat} (h : domainBits < 64) :
    m.guardedRequireDomain domainBits = some (m.requireDomain domainBits) :=
  if_neg (Nat.not_le.mpr h)

end RangeMap

/-! ## Sharing -/

namespace Pool

variable {α : Type} [BEq α] [Hashable α]

/-- The number of a block and the pool that holds it.  The block must have the size of the others,
and the number room in a word. -/
def guardedAdd (p : Pool α) (block : Array α) : Option (Nat × Pool α) :=
  match p.add? block with
  | none => none
  | some out => if 2 ^ 32 ≤ out.1 then none else some out

/-- Add the cells from index `start` on in `count` blocks, of which the last may be short. -/
def guardedBlocks (cells : Array α) : Nat → Nat → Pool α → Array Nat → Option (Pool α × Array Nat)
  | 0, _, p, refs => some (p, refs)
  | count + 1, start, p, refs =>
    match p.guardedAdd (cells.extract start (start + p.blockSize)) with
    | none => none
    | some out => guardedBlocks cells count (start + p.blockSize) out.2 (refs.push out.1)

/-- The distinct blocks of `2 ^ bits` cells and the number of each block in turn.  What is left over
at the end counts as a block. -/
def guardedShare (bits : Nat) (cells : Array α) : Option (Array α × Array Nat) :=
  if 64 ≤ bits then none
  else
    (guardedBlocks cells ((cells.size + 2 ^ bits - 1) / 2 ^ bits) 0 (empty (2 ^ bits)) #[]).map
      fun out => (out.1.cells, out.2)

variable [LawfulBEq α]

/-- **A block of the right size can be added** while there are no more distinct blocks than words. -/
theorem guardedAdd_eq {p : Pool α} {seen : List (Array α)} (h : p.Holds seen) {block : Array α}
    (hsize : block.size = p.blockSize) (hroom : (seen ++ [block]).eraseDups.length ≤ 2 ^ 32) :
    p.guardedAdd block = some (p.add block) := by
  obtain ⟨-, hplace⟩ := add_holds h block
  have hlt : (p.add block).1 < (seen ++ [block]).eraseDups.length := by
    rw [hplace]
    exact List.idxOf_lt_length_of_mem (List.mem_eraseDups.mpr (by simp))
  have hnumber : ¬ 2 ^ 32 ≤ (p.add block).1 := by omega
  unfold guardedAdd add?
  rw [if_pos hsize]
  simp only [if_neg hnumber]

theorem guardedBlocks_eq (cells : Array α) :
    ∀ (count start : Nat) {p : Pool α} (refs : Array Nat) {seen : List (Array α)}, p.Holds seen →
      start + count * p.blockSize ≤ cells.size →
      (seen ++ blocksFrom p.blockSize cells count start).eraseDups.length ≤ 2 ^ 32 →
      guardedBlocks cells count start p refs = some (addBlocks cells count start p refs)
  | 0, _, _, _, _, _, _, _ => rfl
  | count + 1, start, p, refs, seen, h, hcells, hroom => by
    rw [Nat.succ_mul] at hcells
    have hblock : (cells.extract start (start + p.blockSize)).size = p.blockSize := by
      rw [Array.size_extract]
      omega
    rw [blocksFrom, ← List.singleton_append, ← List.append_assoc] at hroom
    have ih := guardedBlocks_eq cells count (start + p.blockSize)
      (refs.push (p.add (cells.extract start (start + p.blockSize))).1)
      (add_holds h (cells.extract start (start + p.blockSize))).1
      (by rw [add_blockSize]; omega) (by rwa [add_blockSize])
    rw [guardedBlocks, guardedAdd_eq h hblock (Nat.le_trans (length_eraseDups_le_append _ _) hroom)]
    exact ih

/-- **Sharing is safe on whole blocks**: none of them is short, and each gets a number. -/
theorem guardedShare_eq {bits : Nat} {cells : Array α} (hbits : bits < 64)
    (hwhole : cells.size % 2 ^ bits = 0) (hroom : (distinct bits cells).length ≤ 2 ^ 32) :
    guardedShare bits cells = some (share bits cells) := by
  have hpos := Nat.two_pow_pos bits
  have hsize : cells.size = cells.size / 2 ^ bits * 2 ^ bits :=
    (Nat.div_mul_cancel (Nat.dvd_of_mod_eq_zero hwhole)).symm
  have hcount : (cells.size + 2 ^ bits - 1) / 2 ^ bits = cells.size / 2 ^ bits := by
    rw [Nat.add_sub_assoc hpos, hsize, Nat.mul_comm, Nat.mul_add_div hpos,
      Nat.div_eq_of_lt (Nat.sub_lt hpos Nat.one_pos), Nat.mul_div_cancel_left _ hpos, Nat.add_zero]
  have hrun := guardedBlocks_eq cells (cells.size / 2 ^ bits) 0 #[] (empty_holds (2 ^ bits))
    (by rw [Nat.zero_add]; exact Nat.div_mul_le_self _ _) hroom
  unfold guardedShare
  rw [if_neg (Nat.not_le.mpr hbits), hcount, hrun]
  rfl

omit [Hashable α] in
theorem length_distinct_le (bits : Nat) (cells : Array α) :
    (distinct bits cells).length ≤ cells.size := by
  have hle := length_eraseDups_le (blocks (2 ^ bits) cells)
  rw [length_blocks] at hle
  exact Nat.le_trans hle (Nat.div_le_self _ _)

end Pool

namespace Compilation

/-! ## Leaves -/

/-- The leaves of the values of all keys, and the number of each block of keys.  The width of the
block is the last of the layout; packing takes some bits off it. -/
def guardedLeafOf (layout : Layout) (dense : Array UInt32) : Option (Leaf × Array Nat) :=
  match layout.levels[layout.levels.length - 1]? with
  | none => none
  | some bits =>
    if layout.packed then
      match Packing.packAll? layout.width.bits dense with
      | none => none
      | some bytes =>
        if 64 ≤ bits ∨ bits < packedBits layout then none
        else (Pool.guardedShare (bits - packedBits layout) bytes).map fun out =>
          (⟨bits, layout.width, .packed out.1⟩, out.2)
    else (Pool.guardedShare bits dense).map fun out => (⟨bits, layout.width, .plain out.1⟩, out.2)

/-- **Making the leaves is safe.** -/
theorem guardedLeafOf_eq (layout : Layout) {dense : Array UInt32}
    (hsize : dense.size = 2 ^ layout.keyBits) :
    guardedLeafOf layout dense = some (leafOf layout dense) := by
  have hlevel : layout.levels[layout.levels.length - 1]? = some layout.leafBits :=
    layout.getElem?_levels_stageCount
  have hkey := layout.keyBits_lt
  have hle := layout.leafBits_le_keyBits
  have hroom : 2 ^ layout.keyBits ≤ 2 ^ 32 := Nat.pow_le_pow_right (by omega) (by omega)
  unfold guardedLeafOf leafOf
  rw [hlevel]
  cases hp : layout.packed with
  | false =>
    have hshare := Pool.guardedShare_eq (by omega : layout.leafBits < 64)
      (by rw [hsize]; exact Nat.mod_eq_zero_of_dvd (Nat.pow_dvd_pow 2 hle))
      (Nat.le_trans (Pool.length_distinct_le _ _) (hsize ▸ hroom))
    simp only [hshare, Option.map_some, Bool.false_eq_true, if_false]
  | true =>
    obtain ⟨hcap, hbits⟩ := capacity_eq_two_pow hp
    obtain ⟨c, hc⟩ : ∃ c, c = packedBits layout := ⟨_, rfl⟩
    rw [← hc] at hcap hbits ⊢
    -- the bytes are as many as keys of which the bits inside a byte are cut off
    have hbytes : (Packing.packAll layout.width.bits dense).size = 2 ^ (layout.keyBits - c) := by
      refine Packing.size_packAll_of_mul (by rw [hcap]; exact Nat.two_pow_pos c) ?_
      rw [hcap, ← Nat.pow_add, hsize, Nat.sub_add_cancel (by omega)]
    have hpack : Packing.packAll? layout.width.bits dense =
        some (Packing.packAll layout.width.bits dense) := by
      have hpos := Nat.two_pow_pos c
      exact if_neg (by rw [hcap]; omega)
    have hshare := Pool.guardedShare_eq (by omega : layout.leafBits - c < 64)
      (by rw [hbytes]; exact Nat.mod_eq_zero_of_dvd (Nat.pow_dvd_pow 2 (by omega)))
      (Nat.le_trans (Pool.length_distinct_le _ _)
        (by rw [hbytes]; exact Nat.pow_le_pow_right (by omega) (by omega)))
    have hguard : ¬ (64 ≤ layout.leafBits ∨ layout.leafBits < c) := by omega
    simp only [hpack, hshare, Option.map_some, if_true, if_neg hguard]

/-! ## Stages -/

/-- What a build has on its way up: the stages so far, the numbers of the blocks that the next level
refers to, and the records. -/
structure Progress where
  stages : List Stage
  refs : Array Nat
  report : Report

/-- Put the stage of a level below the top onto those under it. -/
def guardedStage (layout : Layout) (level : Nat) (b : Progress) : Option Progress :=
  match layout.levels[level]? with
  | none => none
  | some bits =>
    match Pool.guardedShare bits b.refs with
    | none => none
    | some (cells, up) =>
      (b.report.guardedModify level
        (.withBlocks bits (b.refs.size / 2 ^ bits) (cells.size / 2 ^ bits))).map fun report =>
          ⟨⟨bits, cells⟩ :: b.stages, up, report⟩

/-- The stages of the given level and of those above it, all but the top one. -/
def guardedStages (layout : Layout) : (level : Nat) → Progress → Option Progress
  | 0, b => some b
  | level + 1, b =>
    match guardedStage layout (level + 1) b with
    | none => none
    | some b => guardedStages layout level b

/-- The top stage, if there is one, is a single block and is not shared. -/
def guardedTop (layout : Layout) (b : Progress) : Option (List Stage × Report) :=
  if layout.levels.length - 1 = 0 then some (b.stages, b.report)
  else
    match layout.levels[0]? with
    | none => none
    | some bits =>
      (b.report.guardedModify 0 (.withBlocks bits 1 1)).map fun report =>
        (⟨bits, b.refs⟩ :: b.stages, report)

/-- All stages above the leaves. -/
def guardedRise (layout : Layout) (b : Progress) : Option (List Stage × Report) :=
  (guardedStages layout (layout.levels.length - 1 - 1) b).bind (guardedTop layout)

/-- Record the sizes of the stages from the given level on. -/
def guardedSizes : Nat → List Stage → Report → Option Report
  | _, [], report => some report
  | level, s :: rest, report =>
    match report.guardedModify level (.withSize s.cellBytes s.bytes) with
    | none => none
    | some report => guardedSizes (level + 1) rest report

/-- The stages and leaves of the values written out, and the records of all levels. -/
def guardedLevels (layout : Layout) (dense : Array UInt32) :
    Option (List Stage × Leaf × Report) := do
  let leafAt := layout.levels.length - 1
  let (leaf, refs) ← guardedLeafOf layout dense
  let values ← leaf.guardedLength
  let report ← Report.guardedModify leafAt
    (.withBlocks leaf.bits refs.size (values / 2 ^ leaf.bits)) {}
  let (stages, report) ← guardedRise layout ⟨[], refs, report⟩
  let report ← guardedSizes 0 stages report
  let cellBytes := if layout.packed then 1 else layout.width.bytes
  let report ← report.guardedModify leafAt (.withSize cellBytes leaf.bytes)
  return (stages, leaf, report)

/-- Building with its accesses made explicit. -/
def guardedBuild (layout : Layout) (map : RangeMap) : Option (Except Error Compilation) :=
  match map.guardedRequireDomain layout.domainBits with
  | none => none
  | some (.error e) => some (.error e)
  | some (.ok ()) =>
    match map.requireWidth layout.width with
    | .error e => some (.error e)
    | .ok () => do
      let dense ← map.guardedDense layout.keyBits
      let (stages, leaf, report) ← guardedLevels layout dense
      -- the check must not go outside; its verdict is that of the last line
      let _ ← Table.guardedCheck layout stages leaf map.default
      return (Table.ofParts layout stages leaf map.default).map (⟨·, report⟩)

/-! ## The records -/

/-- The record of a level: that of its layer or, below all layers, of the leaves. -/
def recordOf (leaf : Leaf) (leafBlocks level : Nat) : Option Layer → LevelReport
  | some ⟨s, logical⟩ => ⟨level, s.bits, logical, s.blockCount, s.cellBytes, s.bytes⟩
  | none => ⟨level, leaf.bits, leafBlocks, leaf.blockCount, leaf.cellBytes, leaf.bytes⟩

theorem record_eq (leaf : Leaf) (leafBlocks : Nat) : ∀ (level : Nat) (layers : List Layer),
    record leaf leafBlocks level layers =
      (List.range (layers.length + 1)).map fun k => recordOf leaf leafBlocks (level + k) layers[k]?
  | _, [] => rfl
  | level, l :: rest => by
    have hrange : List.range (rest.length + 1 + 1) =
        0 :: (List.range (rest.length + 1)).map Nat.succ := List.range_succ_eq_map
    rw [record, record_eq leaf leafBlocks (level + 1) rest, List.length_cons, hrange, List.map_cons,
      List.map_map]
    congr 1
    apply List.map_congr_left
    intro k _
    simp only [Function.comp_apply, List.getElem?_cons_succ, Nat.succ_eq_add_one]
    rw [Nat.add_right_comm, Nat.add_assoc]

/-! ## The run -/

section Layers

variable {widths : List Nat} {refs : Array Nat}

theorem getElem?_stack : ∀ (widths : List Nat) {level bits : Nat}, widths[level]? = some bits →
    (stack widths refs).1[level]? =
      some ⟨⟨bits, (Pool.share bits (stack (widths.drop (level + 1)) refs).2).1⟩,
        (stack (widths.drop (level + 1)) refs).2.size / 2 ^ bits⟩
  | _ :: _, 0, _, h => by
    cases h
    rfl
  | _ :: below, _ + 1, _, h => getElem?_stack below h

theorem size_stack : ∀ {widths : List Nat} {count : Nat}, refs.size = count * 2 ^ widths.sum →
    (stack widths refs).2.size = count
  | [], count, h => by simpa [stack] using h
  | bits :: below, count, h => by
    rw [List.sum_cons, Nat.pow_add, ← Nat.mul_assoc] at h
    simp only [stack, Pool.size_share_refs, size_stack h]
    exact Nat.mul_div_cancel _ (Nat.two_pow_pos bits)

theorem size_stack_drop (h : refs.size = 2 ^ widths.sum) (level : Nat) :
    (stack (widths.drop level) refs).2.size = 2 ^ (widths.take level).sum := by
  apply size_stack
  rw [h, ← Nat.pow_add, ← List.sum_append, List.take_append_drop]

end Layers

section Run

variable (layout : Layout) (leaf : Leaf) (refs : Array Nat)

/-- The record of a level above the given leaves and their block numbers. -/
def expected (level : Nat) : LevelReport :=
  recordOf leaf refs.size level (stack layout.stageBits refs).1[level]?

/-- The build when the given level and those below it are done. -/
def risen (level : Nat) : Progress :=
  ⟨stagesOf (layout.stageBits.drop level) refs, (stack (layout.stageBits.drop level) refs).2,
    .noted (expected layout leaf refs) layout.depth level⟩

theorem expected_level (level : Nat) : (expected layout leaf refs level).level = level := by
  unfold expected
  cases (stack layout.stageBits refs).1[level]? <;> rfl

theorem length_layers : (stack layout.stageBits refs).1.length = layout.stageCount := by
  have hlen := length_stagesOf layout.stageBits refs
  rwa [stagesOf, List.length_map, layout.length_stageBits] at hlen

theorem expected_leaf : expected layout leaf refs layout.stageCount =
    ⟨layout.stageCount, leaf.bits, refs.size, leaf.blockCount, leaf.cellBytes, leaf.bytes⟩ := by
  unfold expected
  rw [List.getElem?_eq_none (Nat.le_of_eq (length_layers layout refs))]
  rfl

theorem risen_leaf : risen layout leaf refs layout.stageCount =
    ⟨[], refs, .noted (expected layout leaf refs) layout.depth layout.stageCount⟩ := by
  have hdrop : layout.stageBits.drop layout.stageCount = [] := by
    rw [← layout.length_stageBits, List.drop_length]
  rw [risen, hdrop]
  rfl

theorem ofRecords_expected : Report.ofRecords layout.depth (expected layout leaf refs) =
    ⟨record leaf refs.size 0 (stack layout.stageBits refs).1⟩ := by
  rw [record_eq, length_layers, ← layout.depth_eq, Report.ofRecords]
  simp only [Nat.zero_add]
  rfl

variable {layout leaf refs} {level : Nat}

theorem expected_size (leaf : Leaf) {s : Stage}
    (h : (stagesOf layout.stageBits refs)[level]? = some s) :
    (expected layout leaf refs level).cellBytes = s.cellBytes ∧
      (expected layout leaf refs level).bytes = s.bytes := by
  rw [stagesOf, List.getElem?_map, Option.map_eq_some_iff] at h
  obtain ⟨layer, hlayer, rfl⟩ := h
  unfold expected
  rw [hlayer]
  exact ⟨rfl, rfl⟩

theorem exists_stageBits (h : level < layout.stageCount) :
    ∃ bits < 32, layout.levels[level]? = some bits ∧ layout.stageBits[level]? = some bits ∧
      layout.stageBits.take (level + 1) = layout.stageBits.take level ++ [bits] ∧
      layout.stageBits.drop level = bits :: layout.stageBits.drop (level + 1) := by
  rw [← layout.length_stageBits] at h
  have hlevel : layout.levels[level]? = some layout.stageBits[level] := by
    rw [← layout.stageBits_append, List.getElem?_append_left h, List.getElem?_eq_getElem h]
  exact ⟨_, Layout.level_lt (List.mem_of_getElem? hlevel), hlevel, List.getElem?_eq_getElem h,
    List.take_succ_eq_append_getElem h, List.drop_eq_getElem_cons h⟩

theorem expected_blocks (leaf : Leaf) (refs : Array Nat) {bits : Nat}
    (h : layout.stageBits[level]? = some bits) :
    (expected layout leaf refs level).bits = bits ∧
      (expected layout leaf refs level).logical =
        (stack (layout.stageBits.drop (level + 1)) refs).2.size / 2 ^ bits ∧
      (expected layout leaf refs level).physical =
        (Pool.share bits (stack (layout.stageBits.drop (level + 1)) refs).2).1.size / 2 ^ bits := by
  unfold expected
  rw [getElem?_stack layout.stageBits h]
  exact ⟨rfl, rfl, rfl⟩

theorem size_stack_drop_le (hrefs : refs.size = 2 ^ layout.stageBits.sum) (level : Nat) :
    (stack (layout.stageBits.drop level) refs).2.size ≤ 2 ^ 32 := by
  have hsum := congrArg List.sum (List.take_append_drop level layout.stageBits)
  rw [List.sum_append] at hsum
  have hkey := layout.keyBits_lt
  rw [layout.keyBits_eq_add] at hkey
  rw [size_stack_drop hrefs]
  exact Nat.pow_le_pow_right (by omega) (by omega)

/-- **One level up.** -/
theorem guardedStage_eq (hrefs : refs.size = 2 ^ layout.stageBits.sum)
    (h : level < layout.stageCount) :
    guardedStage layout level (risen layout leaf refs (level + 1)) =
      some (risen layout leaf refs level) := by
  obtain ⟨bits, hbits, hlevel, hstage, htake, hdrop⟩ := exists_stageBits h
  -- the block numbers of the level below form whole blocks
  have hsize := size_stack_drop hrefs (level + 1)
  rw [htake, List.sum_append, List.sum_singleton, Nat.pow_add] at hsize
  have hshare := Pool.guardedShare_eq (by omega : bits < 64)
    (by rw [hsize]; exact Nat.mul_mod_left _ _)
    (Nat.le_trans (Pool.length_distinct_le _ _) (size_stack_drop_le hrefs (level + 1)))
  obtain ⟨hb, hlogical, hphysical⟩ := expected_blocks leaf refs hstage
  have hnoted := Report.modify_noted (layout.lt_depth_iff.mpr (Nat.le_of_lt h))
    (expected_level layout leaf refs level)
  rw [hb, hlogical, hphysical] at hnoted
  simp only [guardedStage, risen, hlevel, hshare, Report.guardedModify_eq, Option.map_some, hdrop,
    stagesOf_cons, hnoted]
  rfl

/-- **All levels up to the top.** -/
theorem guardedStages_eq (hrefs : refs.size = 2 ^ layout.stageBits.sum) :
    ∀ {level : Nat}, level < layout.stageCount →
      guardedStages layout level (risen layout leaf refs (level + 1)) =
        some (risen layout leaf refs 1)
  | 0, _ => rfl
  | level + 1, h => by
    rw [guardedStages, guardedStage_eq hrefs h]
    exact guardedStages_eq hrefs (Nat.lt_of_succ_lt h)

/-- The top stage is what sharing makes of it, since there is nothing to share. -/
theorem guardedTop_eq (hrefs : refs.size = 2 ^ layout.stageBits.sum) (h : 0 < layout.stageCount) :
    guardedTop layout (risen layout leaf refs 1) = some (stagesOf layout.stageBits refs,
      .noted (expected layout leaf refs) layout.depth 0) := by
  obtain ⟨bits, -, hlevel, hstage, htake, hdrop⟩ := exists_stageBits h
  rw [Nat.zero_add, List.drop_zero] at hdrop
  have hsize : (stack (layout.stageBits.drop 1) refs).2.size = 2 ^ bits := by
    rw [size_stack_drop hrefs, htake, List.take_zero, List.nil_append, List.sum_singleton]
  have hsingle := Pool.share_single hsize
  obtain ⟨hb, hlogical, hphysical⟩ := expected_blocks leaf refs hstage
  have hone : 2 ^ bits / 2 ^ bits = 1 := Nat.div_self (Nat.two_pow_pos bits)
  rw [Nat.zero_add, hsize, hone] at hlogical
  rw [Nat.zero_add, hsingle, hsize, hone] at hphysical
  have hnoted := Report.modify_noted (layout.lt_depth_iff.mpr (Nat.le_of_lt h))
    (expected_level layout leaf refs 0)
  rw [hb, hlogical, hphysical] at hnoted
  have hstages : stagesOf layout.stageBits refs =
      ⟨bits, (stack (layout.stageBits.drop 1) refs).2⟩ ::
        stagesOf (layout.stageBits.drop 1) refs := by
    refine (congrArg (stagesOf · refs) hdrop).trans ?_
    rw [stagesOf_cons, hsingle]
  have hcount : ¬ layout.levels.length - 1 = 0 := Nat.ne_of_gt h
  simp only [guardedTop, if_neg hcount, hlevel, Report.guardedModify_eq, risen, Option.map_some,
    hstages, hnoted]

theorem guardedRise_eq (hrefs : refs.size = 2 ^ layout.stageBits.sum) :
    guardedRise layout (risen layout leaf refs layout.stageCount) =
      some (stagesOf layout.stageBits refs,
        .noted (expected layout leaf refs) layout.depth 0) := by
  have hcount : layout.levels.length - 1 = layout.stageCount := rfl
  unfold guardedRise
  rw [hcount]
  cases h : layout.stageCount with
  | zero =>
    rw [guardedStages, Option.bind_some, guardedTop, hcount, if_pos h, risen, List.drop_zero]
  | succ level =>
    rw [Nat.add_sub_cancel, guardedStages_eq hrefs (by omega), Option.bind_some]
    exact guardedTop_eq hrefs (by omega)

theorem guardedSizes_eq : ∀ (rest : List Stage) {level : Nat},
    (stagesOf layout.stageBits refs).drop level = rest → level ≤ layout.stageCount →
      guardedSizes level rest (.sized (expected layout leaf refs) layout.depth level) =
        some (.sized (expected layout leaf refs) layout.depth layout.stageCount)
  | [], level, h, hl => by
    have hlen := List.drop_eq_nil_iff.mp h
    rw [length_stagesOf, layout.length_stageBits] at hlen
    rw [guardedSizes, Nat.le_antisymm hl hlen]
  | s :: rest, level, h, _ => by
    have hget : (stagesOf layout.stageBits refs)[level]? = some s := by
      rw [← List.head?_drop, h]
      rfl
    have hlt := (List.getElem?_eq_some_iff.mp hget).1
    rw [length_stagesOf, layout.length_stageBits] at hlt
    have hrest : (stagesOf layout.stageBits refs).drop (level + 1) = rest := by
      rw [← List.drop_drop, List.drop_one, h, List.tail_cons]
    obtain ⟨hcell, hbytes⟩ := expected_size leaf hget
    have hsized := Report.modify_sized (expected layout leaf refs)
      (layout.lt_depth_iff.mpr (Nat.le_of_lt hlt))
    rw [hcell, hbytes] at hsized
    simp only [guardedSizes, Report.guardedModify_eq, hsized]
    exact guardedSizes_eq rest hrest hlt

end Run

/-! ## The whole build -/

theorem leafOf_cellBytes (layout : Layout) (dense : Array UInt32) :
    (leafOf layout dense).1.cellBytes = if layout.packed then 1 else layout.width.bytes := by
  unfold leafOf
  cases layout.packed <;> rfl

theorem guardedLevels_eq {layout : Layout} {dense : Array UInt32}
    (hsize : dense.size = 2 ^ layout.keyBits)
    (hrefs : (leafOf layout dense).2.size = 2 ^ layout.stageBits.sum) :
    guardedLevels layout dense =
      some (stagesOf layout.stageBits (leafOf layout dense).2, (leafOf layout dense).1,
        ⟨record (leafOf layout dense).1 (leafOf layout dense).2.size 0
          (stack layout.stageBits (leafOf layout dense).2).1⟩) := by
  have hleaf := guardedLeafOf_eq layout hsize
  have hcell := leafOf_cellBytes layout dense
  obtain ⟨⟨leaf, refs⟩, hout⟩ : ∃ out, out = leafOf layout dense := ⟨_, rfl⟩
  rw [← hout] at hleaf hrefs hcell ⊢
  have hcount : layout.levels.length - 1 = layout.stageCount := rfl
  -- the blocks of the leaves, the stages from the lowest up, the sizes from the top down, and last
  -- the size of the leaves
  have hstart := Report.modify_blank (expected_level layout leaf refs layout.stageCount)
  rw [expected_leaf, ← layout.depth_eq] at hstart
  have hrise : guardedRise layout ⟨[], refs, _⟩ = some (stagesOf layout.stageBits refs, _) :=
    risen_leaf layout leaf refs ▸ guardedRise_eq hrefs
  have hsizes : guardedSizes 0 (stagesOf layout.stageBits refs) (.noted _ _ _) = some _ :=
    Report.noted_zero (expected layout leaf refs) _ ▸
      guardedSizes_eq _ List.drop_zero (Nat.zero_le _)
  have hlast := Report.modify_sized (expected layout leaf refs)
    (layout.lt_depth_iff.mpr (Nat.le_refl _))
  rw [expected_leaf, ← layout.depth_eq, Report.sized_all, ofRecords_expected, hcell] at hlast
  simp only [guardedLevels, hleaf, Option.bind_eq_bind, Option.bind_some, Leaf.guardedLength_eq,
    hcount, Report.guardedModify_eq]
  rw [← Leaf.blockCount, hstart, hrise, Option.bind_some, hsizes, Option.bind_some]
  exact congrArg (fun report => some (stagesOf layout.stageBits refs, leaf, report)) hlast

/-- **Building is safe**: whatever the layout and the ranges are, no block is short, no number too
large, and no access goes outside. -/
theorem guardedBuild_eq (layout : Layout) (map : RangeMap) :
    guardedBuild layout map = some (build layout map) := by
  have hkey := layout.keyBits_lt
  unfold guardedBuild
  rw [map.guardedRequireDomain_eq layout.domainBits_lt_word]
  cases hd : map.requireDomain layout.domainBits with
  | error e => simp only [build, hd]
  | ok _ =>
    cases hw : map.requireWidth layout.width with
    | error e => simp only [build, hd, hw]
    | ok _ =>
      have hlevels := guardedLevels_eq (size_dense_key layout map) (size_leafLevel_refs hw)
      simp only [map.guardedDense_eq (by omega : layout.keyBits ≤ 60), hlevels,
        Table.guardedCheck_eq, Option.bind_eq_bind, Option.bind_some, build, hd, hw, stagesOf]
      cases Table.ofParts layout _ _ map.default <;> rfl

/-! ## What building comes to -/

theorem guardedLevels_checked {layout : Layout} {map : RangeMap}
    (h : map.requireWidth layout.width = .ok ()) :
    ∃ stages leaf report,
      (map.guardedDense layout.keyBits).bind (guardedLevels layout) = some (stages, leaf, report) ∧
      Table.check layout stages leaf map.default = .ok () := by
  have hkey := layout.keyBits_lt
  have hlevels := guardedLevels_eq (size_dense_key layout map) (size_leafLevel_refs h)
  rw [map.guardedDense_eq (by omega), Option.bind_some]
  exact ⟨_, _, _, hlevels, (Table.check_eq_ok ..).mpr (build_wellFormed h)⟩

/-- The last range decides on the domain, since it reaches farthest. -/
theorem build_outside {layout : Layout} {map : RangeMap}
    (h : ∃ r ∈ map.ranges, 2 ^ layout.domainBits ≤ r.last.toNat) :
    ∃ r ∈ map.ranges, 2 ^ layout.domainBits ≤ r.last.toNat ∧
      build layout map = .error (.config (.outsideDomain r layout.domainBits)) := by
  obtain ⟨far, hfar, hout⟩ := h
  have hne : map.requireDomain layout.domainBits ≠ .ok () := fun hok => by
    have := RangeMap.last_lt_of_requireDomain hok hfar
    omega
  have hword := wordPow_of_lt layout.domainBits_lt_word
  unfold RangeMap.requireDomain at hne
  cases hlast : map.ranges.getLast? with
  | none => simp [hlast] at hne
  | some r =>
    have hr : 2 ^ layout.domainBits ≤ r.last.toNat := by
      by_contra hlt
      simp [hlast, hword, hlt] at hne
    refine ⟨r, List.mem_of_getLast? hlast, hr, (build_eq_error_iff ..).mpr (.inl ?_)⟩
    simp only [RangeMap.requireDomain, hlast, hword, if_pos hr]

/-- Of the values that have no room, the first is reported. -/
theorem build_overflow {layout : Layout} {map : RangeMap}
    (hd : ∀ r ∈ map.ranges, r.last.toNat < 2 ^ layout.domainBits)
    (h : ∃ v ∈ map.ranges.map (·.value) ++ [map.default], 2 ^ layout.width.bits ≤ v.toNat) :
    ∃ before v after, map.ranges.map (·.value) ++ [map.default] = before ++ v :: after ∧
      (∀ u ∈ before, u.toNat < 2 ^ layout.width.bits) ∧ 2 ^ layout.width.bits ≤ v.toNat ∧
      build layout map = .error (.valueOverflow v layout.width.bits) := by
  have hfits : ∀ u, (! layout.width.fits u) = true ↔ 2 ^ layout.width.bits ≤ u.toNat := by
    intro u
    rw [Bool.not_eq_true', ← Bool.not_eq_true, layout.width.fits_iff, Nat.not_lt]
  obtain ⟨w, hw, hwide⟩ := h
  obtain ⟨v, hfind⟩ : ∃ v, (map.ranges.map (·.value) ++ [map.default]).find?
      (! layout.width.fits ·) = some v := by
    rw [← Option.isSome_iff_exists, List.find?_isSome]
    exact ⟨w, hw, (hfits w).mpr hwide⟩
  obtain ⟨hv, before, after, hvalues, hbefore⟩ := List.find?_eq_some_iff_append.mp hfind
  refine ⟨before, v, after, hvalues, fun u hu => ?_, (hfits v).mp hv, ?_⟩
  · have hroom : layout.width.fits u = true := by simpa using hbefore u hu
    exact (layout.width.fits_iff u).mp hroom
  · refine (build_eq_error_iff ..).mpr
      (.inr ⟨(map.requireDomain_eq_ok layout.domainBits_lt_word).mpr hd, ?_⟩)
    simp only [RangeMap.requireWidth, hfind]

theorem requireWidth_eq_ok_iff (map : RangeMap) (width : Width) :
    map.requireWidth width = .ok () ↔
      ∀ v ∈ map.ranges.map (·.value) ++ [map.default], v.toNat < 2 ^ width.bits := by
  rw [map.requireWidth_eq_ok]
  simp only [width.fits_iff, List.mem_append, List.mem_map, List.mem_singleton]
  constructor
  · rintro ⟨hranges, hdefault⟩ v (⟨r, hr, rfl⟩ | rfl)
    · exact hranges r hr
    · exact hdefault
  · intro h
    exact ⟨fun r hr => h r.value (.inl ⟨r, hr, rfl⟩), h map.default (.inr rfl)⟩

/-- **What building comes to**, for every layout and every range map.  No assertion fails and no
access goes outside.  A table is built exactly if every range lies in the domain and every value and
the default have room in the width.  Otherwise a range outside the domain is reported and, if there
is none, the first value without room, where the default comes last.  The parts that are made of
values with room always pass the check of a table. -/
theorem build_outcome (layout : Layout) (map : RangeMap) :
    guardedBuild layout map = some (build layout map) ∧
    ((∃ made, build layout map = .ok made) ↔
      (∀ r ∈ map.ranges, r.last.toNat < 2 ^ layout.domainBits) ∧
        ∀ v ∈ map.ranges.map (·.value) ++ [map.default], v.toNat < 2 ^ layout.width.bits) ∧
    ((∃ r ∈ map.ranges, 2 ^ layout.domainBits ≤ r.last.toNat) →
      ∃ r ∈ map.ranges, 2 ^ layout.domainBits ≤ r.last.toNat ∧
        build layout map = .error (.config (.outsideDomain r layout.domainBits))) ∧
    ((∀ r ∈ map.ranges, r.last.toNat < 2 ^ layout.domainBits) →
      (∃ v ∈ map.ranges.map (·.value) ++ [map.default], 2 ^ layout.width.bits ≤ v.toNat) →
      ∃ before v after, map.ranges.map (·.value) ++ [map.default] = before ++ v :: after ∧
        (∀ u ∈ before, u.toNat < 2 ^ layout.width.bits) ∧ 2 ^ layout.width.bits ≤ v.toNat ∧
        build layout map = .error (.valueOverflow v layout.width.bits)) ∧
    ((∀ v ∈ map.ranges.map (·.value) ++ [map.default], v.toNat < 2 ^ layout.width.bits) →
      ∃ stages leaf report,
        (map.guardedDense layout.keyBits).bind (guardedLevels layout) =
          some (stages, leaf, report) ∧
        Table.check layout stages leaf map.default = .ok ()) := by
  refine ⟨guardedBuild_eq layout map, ?_, build_outside, build_overflow, ?_⟩
  · rw [build_eq_ok_iff, map.requireDomain_eq_ok layout.domainBits_lt_word, requireWidth_eq_ok_iff]
  · intro hvalues
    exact guardedLevels_checked ((requireWidth_eq_ok_iff map layout.width).mpr hvalues)

/-- Packed four-bit values over a six-bit domain: a map that is built, one of which the last range
leaves the domain, and one of which the second value and the default have no room. -/
theorem build_outcome_packed :
    ∃ (layout : Layout) (good outside wide : RangeMap),
      Layout.ofLevels 6 [2, 2, 3] .four true = .ok layout ∧
      RangeMap.ofRanges [⟨5, 5, 1⟩, ⟨17, 63, 2⟩] 9 = .ok good ∧
      RangeMap.ofRanges [⟨5, 5, 1⟩, ⟨17, 64, 99⟩] 9 = .ok outside ∧
      RangeMap.ofRanges [⟨5, 5, 1⟩, ⟨17, 40, 16⟩] 77 = .ok wide ∧
      (∃ made, build layout good = .ok made) ∧
      build layout outside = .error (.config (.outsideDomain ⟨17, 64, 99⟩ 6)) ∧
      build layout wide = .error (.valueOverflow 16 4) := by
  let layout : Layout := ⟨6, [2, 2, 3], .four, true, by decide, by decide, by decide, by decide,
    by decide, by decide, by decide, by decide⟩
  let good : RangeMap := ⟨[⟨5, 5, 1⟩, ⟨17, 63, 2⟩], 9, by decide, by decide⟩
  let outside : RangeMap := ⟨[⟨5, 5, 1⟩, ⟨17, 64, 99⟩], 9, by decide, by decide⟩
  let wide : RangeMap := ⟨[⟨5, 5, 1⟩, ⟨17, 40, 16⟩], 77, by decide, by decide⟩
  have hgood := (build_outcome layout good).2.1.mpr
    ⟨by decide, (requireWidth_eq_ok_iff good layout.width).mp rfl⟩
  have hwide : build layout wide = .error (.valueOverflow 16 4) := by
    obtain ⟨before, v, after, hvalues, hbefore, hv, hbuild⟩ :=
      (build_outcome layout wide).2.2.2.1 (by decide) ⟨16, by simp [wide], by decide⟩
    rcases before with - | ⟨x, - | ⟨y, rest⟩⟩
    · cases hvalues
      exact absurd hv (by decide)
    · cases hvalues
      exact hbuild
    · have hy : 16 = y := (List.cons.inj (List.cons.inj hvalues).2).1
      subst hy
      exact absurd (hbefore 16 (by simp)) (by decide)
  obtain ⟨r, hr, hfar, hout⟩ := (build_outcome layout outside).2.2.1
    ⟨⟨17, 64, 99⟩, by decide, by decide⟩
  refine ⟨layout, good, outside, wide, rfl, rfl, rfl, rfl, hgood, ?_, hwide⟩
  rcases List.mem_cons.mp hr with rfl | hr
  · exact absurd hfar (by decide)
  · cases List.mem_singleton.mp hr
    exact hout

end Compilation

end Multistage
