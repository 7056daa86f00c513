import Multistage.Compilation
import Multistage.Proofs.Expansion
import Multistage.Proofs.LookupSafety
import Multistage.Proofs.Packing

/-!
# A built table gives the values of its range map

Building works from the leaves up.  Two invariants carry it:

* `Covers` — the leaves with the block numbers of all parts of the key hold the values written out;
* `Stacked` — from a block of the first stage, every key leads to the block of leaves that its part
  of the key has.  `Stacked.share` is the step that puts one more stage on top, `stack_stacked` the
  run over all of them.

Principal results: `build_eq_ok_iff` — a table can be built exactly if the ranges lie in the domain
and the values have room in the width; the parts always pass the check.  `get_build` — the table
gives every code point the value that the range map gives it.
-/

namespace Multistage

open Table

namespace Compilation

/-! ## Packed leaves -/

/-- A byte of packed leaves holds `2 ^ packedBits` values, and a block of leaves is not smaller. -/
theorem capacity_eq_two_pow {layout : Layout} (hp : layout.packed = true) :
    Packing.capacity layout.width.bits = 2 ^ packedBits layout ∧
      packedBits layout ≤ layout.leafBits := by
  have hcap : layout.cellCapacity = Packing.capacity layout.width.bits := by
    simp [Layout.cellCapacity, cellCapacity, hp, Packing.capacity]
  have hpow : Packing.capacity layout.width.bits = 2 ^ packedBits layout := by
    have hpk := layout.packable hp
    rw [packedBits, hcap]
    revert hpk
    cases layout.width <;> decide
  refine ⟨hpow, ?_⟩
  have hle : layout.cellCapacity ≤ 2 ^ layout.leafBits := layout.byte_le_leaf hp
  rw [hcap, hpow] at hle
  exact (Nat.pow_le_pow_iff_right (by omega)).mp hle

/-- Byte and slot of a value, when blocks consist of `2 ^ d` bytes of `2 ^ c` values. -/
theorem packed_index {c d s : Nat} (block : Nat) (hs : s < 2 ^ (d + c)) :
    (block * 2 ^ (d + c) + s) / 2 ^ c = block * 2 ^ d + s / 2 ^ c ∧
      (block * 2 ^ (d + c) + s) % 2 ^ c = s % 2 ^ c ∧ s / 2 ^ c < 2 ^ d := by
  have hsplit : block * 2 ^ (d + c) + s = s + 2 ^ c * (block * 2 ^ d) := by
    rw [Nat.pow_add, ← Nat.mul_assoc, Nat.mul_comm (2 ^ c), Nat.add_comm]
  have hpos := Nat.two_pow_pos c
  refine ⟨?_, ?_, ?_⟩
  · rw [hsplit, Nat.add_mul_div_left _ _ hpos, Nat.add_comm]
  · rw [hsplit, Nat.add_mul_mod_self_left]
  · rw [Nat.div_lt_iff_lt_mul hpos, ← Nat.pow_add]
    exact hs

theorem get?_packAll_of_fits {w : Width} (hcap : Packing.capacity w.bits ≠ 0)
    {dense : Array UInt32} (hfit : ∀ v ∈ dense, w.fits v = true) {i : Nat} (hi : i < dense.size) :
    Packing.get? w.bits (Packing.packAll w.bits dense) i = dense[i]? := by
  have hlt := (w.fits_iff _).mp (hfit _ (Array.getElem_mem hi))
  rw [Packing.get?_packAll hcap hi, Nat.mod_eq_of_lt hlt, UInt32.ofNat_toNat,
    Array.getElem?_eq_getElem hi]

theorem get?_of_equal_blocks {bits c d : Nat} (hcap : Packing.capacity bits = 2 ^ c)
    {xs ys : Array UInt8} {a b : Nat}
    (h : ∀ k < 2 ^ d, xs[a * 2 ^ d + k]? = ys[b * 2 ^ d + k]?) {s : Nat} (hs : s < 2 ^ (d + c)) :
    Packing.get? bits xs (a * 2 ^ (d + c) + s) = Packing.get? bits ys (b * 2 ^ (d + c) + s) := by
  obtain ⟨hq, hr, hlt⟩ := packed_index a hs
  obtain ⟨hq', hr', -⟩ := packed_index b hs
  simp only [Packing.get?]
  rw [hcap, hq, hr, hq', hr', h _ hlt]

/-! ## Leaves -/

/-- Leaves and the block numbers of the parts of an array: the parts have the values of their
blocks, and no other block is there. -/
structure Covers (leaf : Leaf) (refs : Array Nat) (dense : Array UInt32) : Prop where
  whole : Whole leaf.length leaf.bits
  refs_size : refs.size * 2 ^ leaf.bits = dense.size
  mem_refs : ∀ page, page ∈ refs ↔ page < leaf.blockCount
  lookup : ∀ i < refs.size, ∃ ref, refs[i]? = some ref ∧ ∀ s < 2 ^ leaf.bits,
    leaf.get? (ref * 2 ^ leaf.bits + s) = dense[i * 2 ^ leaf.bits + s]?

theorem whole_share {α : Type} [BEq α] [LawfulBEq α] [Hashable α] {bits : Nat} {cells : Array α}
    (h : 0 < cells.size / 2 ^ bits) : Whole (Pool.share bits cells).1.size bits := by
  have hpos := Nat.mul_pos (Pool.distinct_length_pos h) (Nat.two_pow_pos bits)
  rw [Pool.size_share_cells]
  exact ⟨Nat.mul_mod_left _ _, Nat.pos_iff_ne_zero.mp hpos⟩

theorem covers_plain {bits : Nat} (width : Width) {dense : Array UInt32}
    (hw : Whole dense.size bits) :
    Covers ⟨bits, width, .plain (Pool.share bits dense).1⟩ (Pool.share bits dense).2 dense := by
  have hdiv := hw.div_mul
  refine ⟨whole_share hw.blocks_pos, ?_, Pool.mem_share_refs_iff bits dense, ?_⟩
  · rw [Pool.size_share_refs]
    exact hdiv
  · intro i hi
    rw [Pool.size_share_refs] at hi
    exact Pool.share_lookup hi

theorem covers_packed {layout : Layout} (hp : layout.packed = true) {dense : Array UInt32}
    (hw : Whole dense.size layout.leafBits) (hfit : ∀ v ∈ dense, layout.width.fits v = true) :
    Covers ⟨layout.leafBits, layout.width, .packed (Pool.share
        (layout.leafBits - packedBits layout) (Packing.packAll layout.width.bits dense)).1⟩
      (Pool.share (layout.leafBits - packedBits layout)
        (Packing.packAll layout.width.bits dense)).2 dense := by
  obtain ⟨hcap, hle⟩ := capacity_eq_two_pow hp
  obtain ⟨c, hc⟩ : ∃ c, c = packedBits layout := ⟨_, rfl⟩
  obtain ⟨d, hd⟩ : ∃ d, d = layout.leafBits - c := ⟨_, rfl⟩
  have hbits : layout.leafBits = d + c := by omega
  rw [← hc] at hcap
  rw [← hc, ← hd]
  rw [hbits] at hw ⊢
  obtain ⟨bytes, hbytes⟩ : ∃ bytes, bytes = Packing.packAll layout.width.bits dense := ⟨_, rfl⟩
  have hdiv := hw.div_mul
  have hsize : bytes.size = dense.size / 2 ^ (d + c) * 2 ^ d := by
    rw [hbytes]
    refine Packing.size_packAll_of_mul (by rw [hcap]; exact Nat.two_pow_pos c) ?_
    rw [hcap, Nat.mul_assoc, ← Nat.pow_add, hdiv]
  have hcount : bytes.size / 2 ^ d = dense.size / 2 ^ (d + c) := by
    rw [hsize, Nat.mul_div_cancel _ (Nat.two_pow_pos d)]
  have hpos : 0 < bytes.size / 2 ^ d := by
    rw [hcount]
    exact hw.blocks_pos
  rw [← hbytes]
  -- the values of whole blocks of bytes are whole blocks of values
  have hlen : Leaf.length ⟨d + c, layout.width, .packed (Pool.share d bytes).1⟩ =
      (Pool.distinct d bytes).length * 2 ^ (d + c) := by
    simp only [Leaf.length, hcap, Pool.size_share_cells]
    rw [Nat.mul_assoc, ← Nat.pow_add]
  refine ⟨?_, ?_, ?_, ?_⟩
  · have hne := Nat.mul_pos (Pool.distinct_length_pos hpos) (Nat.two_pow_pos (d + c))
    rw [hlen]
    exact ⟨Nat.mul_mod_left _ _, Nat.pos_iff_ne_zero.mp hne⟩
  · rw [Pool.size_share_refs, hcount]
    exact hdiv
  · intro page
    rw [Pool.mem_share_refs_iff, Pool.share_blockCount, Leaf.blockCount, hlen,
      Nat.mul_div_cancel _ (Nat.two_pow_pos _)]
  · intro i hi
    rw [Pool.size_share_refs] at hi
    obtain ⟨ref, href, hcells⟩ := Pool.share_lookup hi
    refine ⟨ref, href, fun s hs => ?_⟩
    have hcell : i * 2 ^ (d + c) + s < dense.size := by
      rw [← hdiv]
      rw [hcount] at hi
      exact cell_lt hi hs
    have hne : Packing.capacity layout.width.bits ≠ 0 := by
      rw [hcap]
      exact Nat.pos_iff_ne_zero.mp (Nat.two_pow_pos c)
    simp only [Leaf.get?]
    rw [get?_of_equal_blocks hcap hcells hs, hbytes, get?_packAll_of_fits hne hfit hcell]

/-- **The leaves hold the values written out.** -/
theorem leafOf_covers (layout : Layout) {dense : Array UInt32}
    (hsize : dense.size = 2 ^ layout.keyBits) (hfit : ∀ v ∈ dense, layout.width.fits v = true) :
    Covers (leafOf layout dense).1 (leafOf layout dense).2 dense := by
  have hle := layout.leafBits_le_keyBits
  have hw : Whole dense.size layout.leafBits := by
    rw [hsize]
    refine ⟨Nat.mod_eq_zero_of_dvd (Nat.pow_dvd_pow 2 hle), ?_⟩
    exact Nat.pos_iff_ne_zero.mp (Nat.two_pow_pos _)
  unfold leafOf
  cases hp : layout.packed with
  | false => exact covers_plain layout.width hw
  | true => exact covers_packed hp hw hfit

theorem leafOf_bits (layout : Layout) (dense : Array UInt32) :
    (leafOf layout dense).1.bits = layout.leafBits := by
  unfold leafOf
  split <;> rfl

theorem leafOf_width (layout : Layout) (dense : Array UInt32) :
    (leafOf layout dense).1.width = layout.width := by
  unfold leafOf
  split <;> rfl

theorem leafOf_packed (layout : Layout) (dense : Array UInt32) :
    (leafOf layout dense).1.packed = layout.packed := by
  unfold leafOf
  cases hp : layout.packed <;> rfl

theorem leafOf_values_fit (layout : Layout) {dense : Array UInt32}
    (hsize : dense.size = 2 ^ layout.keyBits) (hfit : ∀ v ∈ dense, layout.width.fits v = true)
    (values : Array UInt32) (h : (leafOf layout dense).1.cells = .plain values) :
    ∀ v ∈ values, layout.width.fits v = true := by
  have hmod : dense.size % 2 ^ layout.leafBits = 0 := by
    rw [hsize]
    exact Nat.mod_eq_zero_of_dvd (Nat.pow_dvd_pow 2 layout.leafBits_le_keyBits)
  unfold leafOf at h
  cases hp : layout.packed with
  | true => simp [hp] at h
  | false =>
    simp only [hp, Bool.false_eq_true, if_false, Cells.plain.injEq] at h
    subst h
    intro v hv
    exact hfit v ((Pool.mem_share_cells_iff hmod v).mp hv)

/-! ## Stages -/

/-- Stages over leaves, with the numbers `up` of `count` blocks of the first stage that came in.  Key
`key` of block `j` leads to the block of leaves that has its place in `refs`. -/
structure Stacked (leaf : Leaf) (refs : Array Nat) (stages : List Stage) (count : Nat)
    (up : Array Nat) : Prop where
  linked : Linked leaf stages
  size : up.size = count
  mem_up : ∀ page, page ∈ up ↔ page < topBlocks leaf stages
  reach : ∀ j < count, ∀ key < 2 ^ keyBits leaf stages, ∃ block ref,
    up[j]? = some block ∧
    refs[(j * 2 ^ keyBits leaf stages + key) / 2 ^ leaf.bits]? = some ref ∧
    follow (stepsOf stages (keyBits leaf stages)) block key = some (ref, key % 2 ^ leaf.bits)

theorem stacked_leaf {leaf : Leaf} {refs : Array Nat} (hw : Whole leaf.length leaf.bits)
    (hmem : ∀ page, page ∈ refs ↔ page < leaf.blockCount) :
    Stacked leaf refs [] refs.size refs := by
  refine ⟨.leaf hw, rfl, hmem, ?_⟩
  intro j hj key hk
  rw [keyBits_nil] at hk ⊢
  have hdiv : (j * 2 ^ leaf.bits + key) / 2 ^ leaf.bits = j := by
    rw [Nat.mul_comm, Nat.mul_add_div (Nat.two_pow_pos _), Nat.div_eq_of_lt hk, Nat.add_zero]
  refine ⟨refs[j], refs[j], Array.getElem?_eq_getElem hj, ?_, ?_⟩
  · rw [hdiv]
    exact Array.getElem?_eq_getElem hj
  · rw [Nat.mod_eq_of_lt hk]
    rfl

/-- The place of a key among all keys does not depend on where it is cut. -/
theorem place_of_cut (j bits k key : Nat) :
    (j * 2 ^ bits + key / 2 ^ k) * 2 ^ k + key % 2 ^ k = j * 2 ^ (bits + k) + key := by
  have hkey := Nat.div_add_mod key (2 ^ k)
  rw [Nat.add_mul, Nat.pow_add, Nat.mul_assoc, Nat.add_assoc, Nat.mul_comm (key / 2 ^ k), hkey]

/-- **One more stage**: the block numbers are cut into blocks, and equal ones are shared. -/
theorem Stacked.share {leaf : Leaf} {refs up : Array Nat} {stages : List Stage}
    {count bits : Nat} (hpos : 0 < count) (h : Stacked leaf refs stages (count * 2 ^ bits) up) :
    Stacked leaf refs (⟨bits, (Pool.share bits up).1⟩ :: stages) count (Pool.share bits up).2 := by
  have hcount : up.size / 2 ^ bits = count := by
    rw [h.size, Nat.mul_div_cancel _ (Nat.two_pow_pos bits)]
  have hmod : up.size % 2 ^ bits = 0 := by
    rw [h.size]
    exact Nat.mul_mod_left _ _
  refine ⟨.stage (whole_share (by omega)) ?_ h.linked, ?_, Pool.mem_share_refs_iff bits up, ?_⟩
  · intro page
    rw [Pool.mem_share_cells_iff hmod, h.mem_up]
  · rw [Pool.size_share_refs, hcount]
  · intro j hj key hk
    rw [keyBits_cons] at hk ⊢
    obtain ⟨k, hkb⟩ : ∃ k, k = keyBits leaf stages := ⟨_, rfl⟩
    rw [← hkb] at hk ⊢
    have hspan := Nat.two_pow_pos k
    have hfield : key / 2 ^ k < 2 ^ bits := by
      rw [Nat.div_lt_iff_lt_mul hspan, ← Nat.pow_add]
      exact hk
    have hj' : j < up.size / 2 ^ bits := by
      rw [hcount]
      exact hj
    obtain ⟨block, hblock, hcells⟩ := Pool.share_lookup hj'
    obtain ⟨next, ref, hnext, href, hfollow⟩ := h.reach (j * 2 ^ bits + key / 2 ^ k)
      (cell_lt hj hfield) (key % 2 ^ k) (by rw [← hkb]; exact Nat.mod_lt key hspan)
    rw [← hkb] at href hfollow
    have hrest : key % 2 ^ k % 2 ^ leaf.bits = key % 2 ^ leaf.bits := by
      refine Nat.mod_mod_of_dvd key (Nat.pow_dvd_pow 2 ?_)
      rw [hkb]
      exact Nat.le_add_left _ _
    refine ⟨block, ref, hblock, ?_, ?_⟩
    · rw [← place_of_cut]
      exact href
    · have hsteps := stepsOf_cons leaf ⟨bits, (Pool.share bits up).1⟩ stages
      rw [keyBits_cons, ← hkb] at hsteps
      rw [hsteps]
      simp only [follow, hcells _ hfield, hnext, hfollow, hrest]

/-- The stages of a stack of layers. -/
def stagesOf (widths : List Nat) (refs : Array Nat) : List Stage :=
  (stack widths refs).1.map (·.stage)

theorem stagesOf_cons (bits : Nat) (widths : List Nat) (refs : Array Nat) :
    stagesOf (bits :: widths) refs =
      ⟨bits, (Pool.share bits (stack widths refs).2).1⟩ :: stagesOf widths refs := rfl

theorem stagesOf_bits (refs : Array Nat) :
    ∀ widths : List Nat, (stagesOf widths refs).map (·.bits) = widths
  | [] => rfl
  | bits :: widths => by rw [stagesOf_cons, List.map_cons, stagesOf_bits refs widths]

/-- **All stages.** -/
theorem stack_stacked {leaf : Leaf} {refs : Array Nat} (hw : Whole leaf.length leaf.bits)
    (hmem : ∀ page, page ∈ refs ↔ page < leaf.blockCount) :
    ∀ (widths : List Nat) {count : Nat}, 0 < count → refs.size = count * 2 ^ widths.sum →
      Stacked leaf refs (stagesOf widths refs) count (stack widths refs).2
  | [], count, _, hsize => by
    have h := stacked_leaf hw hmem
    rw [hsize, List.sum_nil, Nat.pow_zero, Nat.mul_one] at h
    exact h
  | bits :: widths, count, hpos, hsize => by
    rw [List.sum_cons, Nat.pow_add, ← Nat.mul_assoc] at hsize
    have ih := stack_stacked hw hmem widths (Nat.mul_pos hpos (Nat.two_pow_pos bits)) hsize
    exact ih.share hpos

theorem Stacked.single {leaf : Leaf} {refs up : Array Nat} {stages : List Stage}
    (h : Stacked leaf refs stages 1 up) : topBlocks leaf stages = 1 ∧ up[0]? = some 0 := by
  obtain ⟨block, _, hblock, -, -⟩ := h.reach 0 Nat.one_pos 0 (Nat.two_pow_pos _)
  have hup : ∀ page ∈ up, page = block := by
    intro page hp
    obtain ⟨i, hi, rfl⟩ := Array.getElem_of_mem hp
    have h0 : i = 0 := by
      have := h.size
      omega
    subst h0
    rw [Array.getElem?_eq_getElem hi] at hblock
    exact Option.some.inj hblock
  have hlt := (h.mem_up block).mp (Array.mem_of_getElem? hblock)
  have hzero : block = 0 := (hup 0 ((h.mem_up 0).mpr (by omega))).symm
  refine ⟨?_, hzero ▸ hblock⟩
  refine Classical.byContradiction fun hne => ?_
  have hone := hup 1 ((h.mem_up 1).mpr (by omega))
  omega

/-! ## The whole build -/

/-- The leaves of a build, and the block number of each part of the key. -/
def leafLevel (layout : Layout) (map : RangeMap) : Leaf × Array Nat :=
  leafOf layout (map.dense layout.keyBits)

/-- The stages of a build. -/
def stageLevels (layout : Layout) (map : RangeMap) : List Stage :=
  stagesOf layout.stageBits (leafLevel layout map).2

theorem size_dense_key (layout : Layout) (map : RangeMap) :
    (map.dense layout.keyBits).size = 2 ^ layout.keyBits :=
  map.size_dense layout.keyBits_lt_word

theorem getElem?_dense_key (layout : Layout) (map : RangeMap) {key : Nat}
    (h : key < 2 ^ layout.keyBits) :
    (map.dense layout.keyBits)[key]? = some (map.get (UInt32.ofNat key)) := by
  have hcode := layout.toNat_key h
  have hlt : (UInt32.ofNat key).toNat < 2 ^ layout.keyBits := by
    rw [hcode]
    exact h
  have hget := map.getElem?_dense layout.keyBits_lt_word hlt
  rwa [hcode] at hget

theorem fits_dense {layout : Layout} {map : RangeMap}
    (h : map.requireWidth layout.width = .ok ()) :
    ∀ v ∈ map.dense layout.keyBits, layout.width.fits v = true := by
  intro v hv
  obtain ⟨key, hkey, rfl⟩ := Array.getElem_of_mem hv
  have hget := getElem?_dense_key layout map (size_dense_key layout map ▸ hkey)
  rw [Array.getElem?_eq_getElem hkey, Option.some.injEq] at hget
  rw [hget]
  exact map.fits_get h _

theorem leafLevel_covers {layout : Layout} {map : RangeMap}
    (h : map.requireWidth layout.width = .ok ()) :
    Covers (leafLevel layout map).1 (leafLevel layout map).2 (map.dense layout.keyBits) :=
  leafOf_covers layout (size_dense_key layout map) (fits_dense h)

theorem size_leafLevel_refs {layout : Layout} {map : RangeMap}
    (h : map.requireWidth layout.width = .ok ()) :
    (leafLevel layout map).2.size = 2 ^ layout.stageBits.sum := by
  have hsize := (leafLevel_covers h).refs_size
  rw [size_dense_key, layout.keyBits_eq_add, Nat.pow_add, leafLevel, leafOf_bits] at hsize
  exact Nat.eq_of_mul_eq_mul_right (Nat.two_pow_pos _) hsize

theorem stageLevels_stacked {layout : Layout} {map : RangeMap}
    (h : map.requireWidth layout.width = .ok ()) :
    Stacked (leafLevel layout map).1 (leafLevel layout map).2 (stageLevels layout map) 1
      (stack layout.stageBits (leafLevel layout map).2).2 := by
  have hcov := leafLevel_covers h
  refine stack_stacked hcov.whole hcov.mem_refs layout.stageBits Nat.one_pos ?_
  rw [Nat.one_mul, size_leafLevel_refs h]

/-- **The parts of a build pass the check.** -/
theorem build_wellFormed {layout : Layout} {map : RangeMap}
    (h : map.requireWidth layout.width = .ok ()) :
    WellFormed layout (stageLevels layout map) (leafLevel layout map).1 map.default := by
  have hst := stageLevels_stacked h
  exact ⟨stagesOf_bits .., leafOf_bits .., leafOf_width .., leafOf_packed .., hst.single.1,
    hst.linked, ((map.requireWidth_eq_ok _).mp h).2,
    leafOf_values_fit layout (size_dense_key layout map) (fits_dense h)⟩

theorem build_eq {layout : Layout} {map : RangeMap}
    (hd : map.requireDomain layout.domainBits = .ok ())
    (hw : map.requireWidth layout.width = .ok ()) :
    build layout map = .ok
      ⟨⟨layout, stageLevels layout map, (leafLevel layout map).1, map.default,
          (check_eq_ok ..).mpr (build_wellFormed hw)⟩,
        ⟨record (leafLevel layout map).1 (leafLevel layout map).2.size 0
          (stack layout.stageBits (leafLevel layout map).2).1⟩⟩ := by
  have hcheck := (check_eq_ok ..).mpr (build_wellFormed hw)
  have hparts : Table.ofParts layout (stageLevels layout map) (leafLevel layout map).1
      map.default = .ok ⟨layout, _, _, _, hcheck⟩ := by
    unfold Table.ofParts
    split
    · rename_i e he
      rw [hcheck] at he
      cases he
    · rfl
  unfold build
  rw [hd, hw]
  simp only [stageLevels, stagesOf, leafLevel] at hparts ⊢
  rw [hparts]

/-- **A table can be built exactly if** the ranges lie in the domain and the values have room. -/
theorem build_eq_ok_iff (layout : Layout) (map : RangeMap) :
    (∃ made, build layout map = .ok made) ↔
      map.requireDomain layout.domainBits = .ok () ∧ map.requireWidth layout.width = .ok () := by
  constructor
  · rintro ⟨made, h⟩
    unfold build at h
    split at h
    · cases h
    rename_i hd
    split at h
    · cases h
    rename_i hw
    exact ⟨hd, hw⟩
  · rintro ⟨hd, hw⟩
    exact ⟨_, build_eq hd hw⟩

/-- **Why a table cannot be built**: the domain is looked at first, then the width, and nothing else
can fail. -/
theorem build_eq_error_iff (layout : Layout) (map : RangeMap) (e : Error) :
    build layout map = .error e ↔ map.requireDomain layout.domainBits = .error e ∨
      map.requireDomain layout.domainBits = .ok () ∧ map.requireWidth layout.width = .error e := by
  cases hd : map.requireDomain layout.domainBits with
  | error e' =>
    unfold build
    rw [hd]
    simp
  | ok _ =>
    cases hw : map.requireWidth layout.width with
    | error e' =>
      unfold build
      rw [hd, hw]
      simp
    | ok _ =>
      rw [build_eq hd hw]
      simp

theorem build_parts {layout : Layout} {map : RangeMap} {made : Compilation}
    (h : build layout map = .ok made) :
    map.requireDomain layout.domainBits = .ok () ∧ map.requireWidth layout.width = .ok () ∧
      made.table.layout = layout ∧ made.table.stages = stageLevels layout map ∧
      made.table.leaf = (leafLevel layout map).1 ∧ made.table.default = map.default := by
  obtain ⟨hd, hw⟩ := (build_eq_ok_iff layout map).mp ⟨made, h⟩
  rw [build_eq hd hw] at h
  cases h
  exact ⟨hd, hw, rfl, rfl, rfl, rfl⟩

theorem find?_build {layout : Layout} {map : RangeMap} {made : Compilation}
    (h : build layout map = .ok made) {code : UInt32} (hc : code.toNat < 2 ^ layout.keyBits) :
    made.table.route.find? code.toNat = some (map.get code) := by
  obtain ⟨-, hw, hlayout, hstages, hleaf, -⟩ := build_parts h
  have hcov := leafLevel_covers hw
  have hst := stageLevels_stacked hw
  have hbits : keyBits (leafLevel layout map).1 (stageLevels layout map) = layout.keyBits :=
    (build_wellFormed hw).keyBits_eq
  -- the top block leads to the leaves that the key has when it is cut in two
  obtain ⟨block, ref, hblock, href, hfollow⟩ := hst.reach 0 Nat.one_pos code.toNat (hbits ▸ hc)
  rw [hst.single.2, Option.some.injEq] at hblock
  subst hblock
  rw [Nat.zero_mul, Nat.zero_add] at href
  rw [hbits] at hfollow
  -- and the leaves have there what the array of all values has
  obtain ⟨ref', href', hvalues⟩ := hcov.lookup _ (Array.getElem?_eq_some_iff.mp href).1
  rw [href, Option.some.injEq] at href'
  subst href'
  have hvalue := hvalues (code.toNat % 2 ^ (leafLevel layout map).1.bits)
    (Nat.mod_lt _ (Nat.two_pow_pos _))
  rw [Nat.mul_comm (code.toNat / _), Nat.div_add_mod, getElem?_dense_key layout map hc,
    UInt32.ofNat_toNat] at hvalue
  unfold Table.route Route.find?
  rw [hlayout, hstages, hleaf]
  simp only [hfollow, hvalue]

/-- **A built table gives the values of its range map**: for every code point, inside the domain, in
the padding of the key or beyond it.  Keys of the table are answered from its leaves, and code points
in no range get the default. -/
theorem get_build {layout : Layout} {map : RangeMap} {made : Compilation}
    (h : build layout map = .ok made) (code : UInt32) :
    made.table.get code = map.get code ∧
      (code.toNat < 2 ^ layout.keyBits →
        made.table.route.find? code.toNat = some (map.get code)) ∧
      ((∀ r ∈ map.ranges, r.contains code = false) → made.table.get code = map.default) := by
  obtain ⟨hd, -, hlayout, -, -, hdefault⟩ := build_parts h
  have hget : made.table.get code = map.get code := by
    by_cases hc : code.toNat < 2 ^ layout.keyBits
    · rw [made.table.get_of_lt (hlayout ▸ hc), find?_build h hc, Option.getD_some]
    · have hdomain : 2 ^ layout.domainBits ≤ 2 ^ layout.keyBits :=
        Nat.pow_le_pow_right (by omega) layout.domain_le_total
      rw [made.table.get_of_le (hlayout ▸ Nat.not_lt.mp hc), hdefault,
        map.get_eq_default hd (by omega)]
  refine ⟨hget, find?_build h, fun hnone => ?_⟩
  have hfind : map.ranges.find? (·.contains code) = none := by
    rw [List.find?_eq_none]
    exact fun r hr => by simp [hnone r hr]
  rw [hget, RangeMap.get, hfind]

/-- A map over six bits under a key of seven, with four-bit values packed in pairs. -/
theorem get_build_padded :
    ∃ layout map made, Layout.ofLevels 6 [2, 2, 3] .four true = .ok layout ∧
      RangeMap.ofRanges [⟨5, 5, 1⟩, ⟨17, 40, 2⟩, ⟨63, 63, 3⟩] 9 = .ok map ∧
      build layout map = .ok made ∧
      made.table.get 40 = map.get 40 ∧ made.table.get 100 = map.default := by
  let layout : Layout := ⟨6, [2, 2, 3], .four, true, by decide, by decide, by decide, by decide,
    by decide, by decide, by decide, by decide⟩
  let map : RangeMap := ⟨[⟨5, 5, 1⟩, ⟨17, 40, 2⟩, ⟨63, 63, 3⟩], 9, by decide, by decide⟩
  obtain ⟨made, h⟩ := (build_eq_ok_iff layout map).mpr ⟨rfl, rfl⟩
  exact ⟨layout, map, made, rfl, rfl, h, (get_build h 40).1, (get_build h 100).2.2 (by decide)⟩

end Compilation

end Multistage
