import Multistage.Proofs.Validity
import Multistage.Table.Lookup

/-!
# Lookup stays inside the table

A table that passes its check can be searched for any code point: every cell that a lookup wants is
there.  What carries this is a bound that each stage hands on to the next: the block reached is one
of the blocks of the level, and the rest of the key is below the number of its keys
(`follow_linked`).

`Table.guardedCheck` and `Table.guardedGet` are check and lookup with their word arithmetic and with
every array access, subtraction, shift and division made explicit; `none` stands for one that is not
defined.

* `follow_linked` — going down linked stages always arrives.
* `find?_route` — the value of a key inside the table is found, and has room in the width.
* `guardedCheck_eq` — the check never makes an undefined access, whatever the parts are.
* `access_safe` — nor does a lookup in a table that passes it.
-/

namespace Multistage

/-! ## Leaves -/

theorem Width.capacity_ne_zero {w : Width} (h : w.packable = true) :
    Packing.capacity w.bits ≠ 0 := by
  cases w <;> simp_all [Width.packable, Width.bits, Packing.capacity]

theorem Packing.fits_slot (w : Width) (byte : UInt8) (index : Nat) :
    w.fits (Packing.slot w.bits byte index) = true := by
  rw [Width.fits_iff, Packing.slot, UInt32.toNat_ofNat']
  exact Nat.lt_of_le_of_lt (Nat.mod_le _ _) (Nat.mod_lt _ (Nat.two_pow_pos _))

namespace Table

theorem WellFormed.capacity_ne_zero {layout : Layout} {stages : List Stage} {leaf : Leaf}
    {default : UInt32} (h : WellFormed layout stages leaf default) {bytes : Array UInt8}
    (hc : leaf.cells = .packed bytes) : Packing.capacity leaf.width.bits ≠ 0 := by
  have hp : layout.packed = true := by
    rw [← h.leaf_packed, Leaf.packed, hc]
  rw [h.leaf_width]
  exact Width.capacity_ne_zero (layout.packable hp)

theorem WellFormed.leaf_get? {layout : Layout} {stages : List Stage} {leaf : Leaf}
    {default : UInt32} (h : WellFormed layout stages leaf default) {index : Nat}
    (hi : index < leaf.length) :
    ∃ v, leaf.get? index = some v ∧ layout.width.fits v = true := by
  cases hc : leaf.cells with
  | plain values =>
    simp only [Leaf.length, hc] at hi
    refine ⟨values[index], ?_, h.values_fit values hc _ (Array.getElem_mem hi)⟩
    simp only [Leaf.get?, hc, Array.getElem?_eq_getElem hi]
  | packed bytes =>
    have hcap := h.capacity_ne_zero hc
    simp only [Leaf.length, hc] at hi
    have hbyte : index / Packing.capacity leaf.width.bits < bytes.size :=
      (Nat.div_lt_iff_lt_mul (Nat.pos_of_ne_zero hcap)).mpr hi
    refine ⟨Packing.slot leaf.width.bits bytes[index / Packing.capacity leaf.width.bits]
      (index % Packing.capacity leaf.width.bits), ?_, ?_⟩
    · simp only [Leaf.get?, hc, Packing.get?, if_neg hcap, Array.getElem?_eq_getElem hbyte,
        Option.map_some]
    · rw [← h.leaf_width]
      exact Packing.fits_slot ..

/-! ## Going down the stages -/

/-- Width of the key left at the first of some stages. -/
def keyBits (leaf : Leaf) (stages : List Stage) : Nat :=
  (stages.map (·.bits)).sum + leaf.bits

@[simp]
theorem keyBits_nil (leaf : Leaf) : keyBits leaf [] = leaf.bits := by
  simp [keyBits]

@[simp]
theorem keyBits_cons (leaf : Leaf) (s : Stage) (rest : List Stage) :
    keyBits leaf (s :: rest) = s.bits + keyBits leaf rest := by
  simp [keyBits, Nat.add_assoc]

theorem WellFormed.keyBits_eq {layout : Layout} {stages : List Stage} {leaf : Leaf}
    {default : UInt32} (h : WellFormed layout stages leaf default) :
    keyBits leaf stages = layout.keyBits := by
  rw [keyBits, h.stage_bits, h.leaf_bits, layout.keyBits_eq_add]

theorem stepsOf_cons (leaf : Leaf) (s : Stage) (rest : List Stage) :
    stepsOf (s :: rest) (keyBits leaf (s :: rest)) =
      ⟨s.pages, 2 ^ s.bits, 2 ^ keyBits leaf rest⟩ :: stepsOf rest (keyBits leaf rest) := by
  rw [stepsOf, keyBits_cons, Nat.add_sub_cancel_left]

theorem cell_lt {blocks bits block field : Nat} (hb : block < blocks) (hf : field < 2 ^ bits) :
    block * 2 ^ bits + field < blocks * 2 ^ bits := by
  have h : (block + 1) * 2 ^ bits ≤ blocks * 2 ^ bits := Nat.mul_le_mul_right _ hb
  rw [Nat.succ_mul] at h
  omega

/-- **Going down linked stages always arrives**: at a block of the leaves, with a rest of the key
that selects one of its values. -/
theorem follow_linked {leaf : Leaf} {stages : List Stage} (h : Linked leaf stages) :
    ∀ {block key : Nat}, block < topBlocks leaf stages → key < 2 ^ keyBits leaf stages →
      ∃ b r, follow (stepsOf stages (keyBits leaf stages)) block key = some (b, r) ∧
        b < leaf.blockCount ∧ r < 2 ^ leaf.bits := by
  induction h with
  | leaf _ =>
    intro block key hb hk
    exact ⟨block, key, rfl, hb, by simpa using hk⟩
  | @stage s rest hw href _ ih =>
    intro block key hb hk
    have hspan : 0 < 2 ^ keyBits leaf rest := Nat.two_pow_pos _
    have hfield : key / 2 ^ keyBits leaf rest < 2 ^ s.bits := by
      rw [Nat.div_lt_iff_lt_mul hspan, ← Nat.pow_add]
      simpa using hk
    have hcell : block * 2 ^ s.bits + key / 2 ^ keyBits leaf rest < s.pages.size := by
      rw [← hw.div_mul]
      exact cell_lt hb hfield
    obtain ⟨page, hpage⟩ : ∃ page, s.pages[block * 2 ^ s.bits + key / 2 ^ keyBits leaf rest]? =
        some page := ⟨_, Array.getElem?_eq_getElem hcell⟩
    have hlt := (href page).mp (Array.mem_of_getElem? hpage)
    obtain ⟨b, r, hfollow, hb', hr⟩ := ih hlt (Nat.mod_lt key hspan)
    refine ⟨b, r, ?_, hb', hr⟩
    rw [stepsOf_cons]
    simp only [follow, hpage, hfollow]

theorem find?_route (t : Table) {key : Nat} (h : key < 2 ^ t.layout.keyBits) :
    ∃ v, t.route.find? key = some v ∧ t.layout.width.fits v = true := by
  have hwf := t.wellFormed
  have hbits := hwf.keyBits_eq
  have htop : 0 < topBlocks t.leaf t.stages := by
    rw [hwf.top]
    exact Nat.one_pos
  obtain ⟨b, r, hfollow, hb, hr⟩ := follow_linked hwf.linked htop (hbits ▸ h)
  have hwhole := ((linked_iff t.leaf 0 t.stages).mp hwf.linked).2.1
  have hindex : b * 2 ^ t.leaf.bits + r < t.leaf.length := by
    rw [← hwhole.div_mul]
    exact cell_lt hb hr
  obtain ⟨v, hv, hfits⟩ := hwf.leaf_get? hindex
  refine ⟨v, ?_, hfits⟩
  rw [hbits] at hfollow
  simp only [route, Route.find?, hfollow, hv]

theorem get_of_lt (t : Table) {code : UInt32} (h : code.toNat < 2 ^ t.layout.keyBits) :
    t.get code = (t.route.find? code.toNat).getD t.default := by
  have hkeys : code.toNat < t.route.keys := h
  unfold get Route.get
  rw [if_pos hkeys]

theorem get_of_le (t : Table) {code : UInt32} (h : 2 ^ t.layout.keyBits ≤ code.toNat) :
    t.get code = t.default := by
  have hkeys : ¬ code.toNat < t.route.keys := Nat.not_lt.mpr h
  unfold get Route.get
  rw [if_neg hkeys]

theorem fits_get (t : Table) (code : UInt32) : t.layout.width.fits (t.get code) = true := by
  by_cases h : code.toNat < 2 ^ t.layout.keyBits
  · obtain ⟨v, hv, hfits⟩ := t.find?_route h
    rw [t.get_of_lt h, hv]
    exact hfits
  · rw [t.get_of_le (Nat.not_lt.mp h)]
    exact t.wellFormed.default_fits

/-! ## The check with its accesses made explicit -/

end Table

/-- Number of values.  The number of values of a byte is a quotient by the width. -/
def Leaf.guardedLength (leaf : Leaf) : Option Nat :=
  match leaf.cells with
  | .plain values => some values.size
  | .packed bytes => if leaf.width.bits = 0 then none else some (bytes.size * (8 / leaf.width.bits))

theorem Leaf.guardedLength_eq (leaf : Leaf) : leaf.guardedLength = some leaf.length := by
  have hbits : leaf.width.bits ≠ 0 := by cases leaf.width <;> simp [Width.bits]
  unfold guardedLength length
  cases leaf.cells with
  | plain values => rfl
  | packed bytes => exact if_neg hbits

namespace Table

section Guarded

variable (layout : Layout) (stages : List Stage) (leaf : Leaf)

/-- Declared width, number of cells and width of a level.  A block of the declared width has as many
cells as a word shifted by it says. -/
def guardedShape (level : Nat) : Option (Nat × Nat × Nat) :=
  match layout.levels[level]? with
  | none => none
  | some declared =>
    if 64 ≤ declared then none
    else if level = layout.stageCount then
      leaf.guardedLength.map fun n => (declared, n, leaf.bits)
    else stages[level]?.map fun s => (declared, s.pages.size, s.bits)

/-- The numbers of blocks of `count` levels from the given one on. -/
def guardedCounts : (count level : Nat) → Option (Except Error (List Nat))
  | 0, _ => some (.ok [])
  | count + 1, level =>
    match guardedShape layout stages leaf level with
    | none => none
    | some (declared, shape) =>
      match checkShape level declared shape with
      | .error e => some (.error e)
      | .ok () =>
        (guardedCounts count (level + 1)).map fun counts =>
          counts.map (shape.1 / 2 ^ declared :: ·)

/-- The references of stages from the given level on, into levels of so many blocks. -/
def guardedReferences (counts : List Nat) : Nat → List Stage → Option (Except Error Unit)
  | _, [] => some (.ok ())
  | level, s :: rest =>
    match counts[level + 1]? with
    | none => none
    | some blocks =>
      match checkPages level s.pages blocks with
      | .error e => some (.error e)
      | .ok () => guardedReferences counts (level + 1) rest

/-- The check, `none` if it makes an undefined access on its way. -/
def guardedCheck (default : UInt32) : Option (Except Error Unit) :=
  if stages.length ≠ layout.stageCount then
    some (.error (.format (.stageCount stages.length layout.depth)))
  else if layout.width.fits default = false then
    some (.error (.valueOverflow default layout.width.bits))
  else
    match layout.levels[layout.stageCount]? with
    | none => none
    | some leafBits =>
      if leaf.bits ≠ leafBits ∨ leaf.width ≠ layout.width ∨ leaf.packed ≠ layout.packed then
        some (.error (.format .leafMismatch))
      else
        match guardedCounts layout stages leaf layout.depth 0 with
        | none => none
        | some (.error e) => some (.error e)
        | some (.ok counts) =>
          match guardedReferences counts 0 stages with
          | none => none
          | some (.error e) => some (.error e)
          | some (.ok ()) => some (checkValues layout.width leaf)

end Guarded

variable {layout : Layout} {stages : List Stage} {leaf : Leaf}

theorem guardedShape_eq (hlen : stages.length = layout.stageCount) {level declared : Nat}
    {shape : Nat × Nat} (hd : layout.levels[level]? = some declared)
    (hs : (shapes stages leaf)[level]? = some shape) :
    guardedShape layout stages leaf level = some (declared, shape) := by
  unfold guardedShape
  unfold shapes at hs
  have hbits := Layout.level_lt (List.mem_of_getElem? hd)
  simp only [hd]
  rw [if_neg (by omega)]
  by_cases hl : level = layout.stageCount
  · rw [if_pos hl, Leaf.guardedLength_eq, Option.map_some]
    have hlast : level = (stages.map fun s => (s.pages.size, s.bits)).length := by
      rw [List.length_map, hlen, hl]
    rw [hlast, List.getElem?_concat_length, Option.some.injEq] at hs
    rw [← hs]
  · rw [if_neg hl]
    have hlt : level < stages.length := by
      have hb := (List.getElem?_eq_some_iff.mp hd).1
      have := layout.depth_eq
      unfold Layout.depth at this
      omega
    rw [List.getElem?_append_left (by simpa using hlt), List.getElem?_map] at hs
    cases hst : stages[level]? with
    | none => rw [hst] at hs; cases hs
    | some s =>
      rw [hst, Option.map_some, Option.some.injEq] at hs
      rw [Option.map_some, ← hs]

/-- The loop over the levels: it stops where the check of shapes does, and otherwise has counted
the blocks of every level. -/
theorem guardedCounts_eq (hlen : stages.length = layout.stageCount) :
    ∀ (widths : List Nat) (rest : List (Nat × Nat)) (level : Nat), widths.length = rest.length →
      layout.levels.drop level = widths → (shapes stages leaf).drop level = rest →
      guardedCounts layout stages leaf widths.length level =
        some ((checkShapes level widths rest).map fun () =>
          List.zipWith (fun declared shape => shape.1 / 2 ^ declared) widths rest)
  | [], rest, level, _, _, _ => rfl
  | declared :: widths, shape :: rest, level, hl, hd, hs => by
    have hd' : layout.levels[level]? = some declared := by
      rw [← List.head?_drop, hd, List.head?_cons]
    have hs' : (shapes stages leaf)[level]? = some shape := by
      rw [← List.head?_drop, hs, List.head?_cons]
    have ih := guardedCounts_eq hlen widths rest (level + 1) (by simpa using hl)
      (by rw [← List.tail_drop, hd, List.tail_cons]) (by rw [← List.tail_drop, hs, List.tail_cons])
    rw [List.length_cons, guardedCounts, guardedShape_eq hlen hd' hs', checkShapes]
    simp only [ih]
    cases checkShape level declared shape with
    | error e => rfl
    | ok _ => cases checkShapes (level + 1) widths rest <;> rfl

theorem zipWith_shapes (leaf : Leaf) :
    ∀ stages : List Stage,
      List.zipWith (fun declared shape => shape.1 / 2 ^ declared)
        (stages.map (·.bits) ++ [leaf.bits]) (shapes stages leaf) =
      stages.map Stage.blockCount ++ [leaf.blockCount]
  | [] => rfl
  | s :: rest => by
    have ih := zipWith_shapes leaf rest
    simp only [shapes] at ih
    simp only [shapes, List.map_cons, List.cons_append, List.zipWith_cons_cons, ih]
    rfl

theorem head?_blockCounts (leaf : Leaf) (rest : List Stage) :
    (rest.map Stage.blockCount ++ [leaf.blockCount]).head? = some (topBlocks leaf rest) := by
  cases rest <;> rfl

theorem guardedReferences_eq {counts : List Nat} :
    ∀ (level : Nat) (rest : List Stage),
      counts.drop level = rest.map Stage.blockCount ++ [leaf.blockCount] →
      guardedReferences counts level rest = some (checkReferences leaf level rest)
  | _, [], _ => rfl
  | level, s :: rest, h => by
    have hnext : counts.drop (level + 1) = rest.map Stage.blockCount ++ [leaf.blockCount] := by
      rw [← List.tail_drop, h]
      rfl
    have hget : counts[level + 1]? = some (topBlocks leaf rest) := by
      rw [← List.head?_drop, hnext, head?_blockCounts]
    rw [guardedReferences, hget, checkReferences_cons]
    simp only [guardedReferences_eq (level + 1) rest hnext]
    cases checkPages level s.pages (topBlocks leaf rest) <;> rfl

/-- **The check never makes an undefined access**, whatever the parts are. -/
theorem guardedCheck_eq (layout : Layout) (stages : List Stage) (leaf : Leaf) (default : UInt32) :
    guardedCheck layout stages leaf default = some (check layout stages leaf default) := by
  unfold guardedCheck check
  by_cases hcount : stages.length ≠ layout.stageCount
  · rw [if_pos hcount, if_pos hcount]
  rw [if_neg hcount, if_neg hcount]
  by_cases hdefault : layout.width.fits default = false
  · rw [if_pos hdefault, if_pos hdefault]
  rw [if_neg hdefault, if_neg hdefault, layout.getElem?_levels_stageCount]
  simp only
  by_cases hleaf : leaf.bits ≠ layout.leafBits ∨ leaf.width ≠ layout.width ∨
      leaf.packed ≠ layout.packed
  · rw [if_pos hleaf, if_pos hleaf]
  rw [if_neg hleaf, if_neg hleaf]
  have hlen : stages.length = layout.stageCount := by omega
  have hlevels : layout.levels.length = (shapes stages leaf).length := by
    have := layout.depth_eq
    unfold Layout.depth at this
    simp [shapes, hlen, this]
  have hcounts := guardedCounts_eq hlen layout.levels (shapes stages leaf) 0 hlevels rfl rfl
  rw [← Layout.depth] at hcounts
  rw [hcounts]
  cases hshapes : checkShapes 0 layout.levels (shapes stages leaf) with
  | error e => rfl
  | ok _ =>
    -- accepted shapes have the declared widths, so the counts are those of the blocks
    have hbits : stages.map (·.bits) = layout.stageBits ∧ leaf.bits = layout.leafBits := by
      rw [← layout.stageBits_append, checkShapes_eq_ok leaf layout.leafBits 0 _ _
        (by rw [hlen, layout.length_stageBits])] at hshapes
      exact ⟨hshapes.1, hshapes.2.1⟩
    have hzip : List.zipWith (fun declared shape => shape.1 / 2 ^ declared) layout.levels
        (shapes stages leaf) = stages.map Stage.blockCount ++ [leaf.blockCount] := by
      rw [← layout.stageBits_append, ← hbits.1, ← hbits.2, zipWith_shapes]
    simp only [Except.map, hzip, guardedReferences_eq 0 stages rfl]
    cases checkReferences leaf 0 stages <;> rfl

/-! ## Lookup with its accesses made explicit -/

/-- Go down the stages from the given level on: `residual` is what is left of the key, `remaining`
its width, `offset` the first cell of the block reached. -/
def guardedWalk (levels : List Nat) : (level : Nat) → List Stage → (residual : UInt32) →
    (remaining offset : Nat) → Option (UInt32 × Nat)
  | _, [], residual, _, offset => some (residual, offset)
  | level, s :: rest, residual, remaining, offset =>
    if remaining < s.bits ∨ 32 ≤ remaining - s.bits then none
    else
      match s.pages[offset + (residual >>> UInt32.ofNat (remaining - s.bits)).toNat]?,
        levels[level + 1]? with
      | some page, some bits =>
        if 64 ≤ bits then none
        else
          guardedWalk levels (level + 1) rest (residual &&& allOnes (remaining - s.bits))
            (remaining - s.bits) (page * 2 ^ bits)
      | _, _ => none

/-- The value of a code point, `none` if an undefined access is made on the way to it. -/
def guardedGet (t : Table) (code : UInt32) : Option UInt32 :=
  if 64 ≤ t.layout.keyBits then none
  else if code.toNat >>> t.layout.keyBits ≠ 0 then some t.default
  else
    match guardedWalk t.layout.levels 0 t.stages code t.layout.keyBits 0 with
    | none => none
    | some (residual, offset) => t.leaf.get? (offset + residual.toNat)

theorem toNat_shiftRight_ofNat (x : UInt32) {n : Nat} (h : n < 32) :
    (x >>> UInt32.ofNat n).toNat = x.toNat / 2 ^ n := by
  have hn : (UInt32.ofNat n).toNat = n := UInt32.toNat_ofNat_of_lt' (Nat.lt_trans h (by decide))
  rw [UInt32.toNat_shiftRight, hn, Nat.mod_eq_of_lt h, Nat.shiftRight_eq_div_pow]

theorem toNat_and_allOnes (x : UInt32) {n : Nat} (h : n ≤ 32) :
    (x &&& allOnes n).toNat = x.toNat % 2 ^ n := by
  have hlt : 2 ^ n - 1 < UInt32.size := by
    have hle : 2 ^ n ≤ 2 ^ 32 := Nat.pow_le_pow_right (by omega) h
    have hpos := Nat.two_pow_pos n
    simp only [UInt32.size]
    omega
  rw [UInt32.toNat_and, allOnes, UInt32.toNat_ofNat_of_lt' hlt, Nat.and_two_pow_sub_one_eq_mod]

/-- Width of the blocks of the first of some stages, of the leaves if there is none. -/
def topBits (leaf : Leaf) : List Stage → Nat
  | [] => leaf.bits
  | s :: _ => s.bits

@[simp]
theorem topBits_nil (leaf : Leaf) : topBits leaf [] = leaf.bits :=
  rfl

@[simp]
theorem topBits_cons (leaf : Leaf) (s : Stage) (rest : List Stage) :
    topBits leaf (s :: rest) = s.bits :=
  rfl

theorem head?_bits (leaf : Leaf) (rest : List Stage) :
    (rest.map (·.bits) ++ [leaf.bits]).head? = some (topBits leaf rest) := by
  cases rest <;> rfl

/-- The walk with words goes where the walk with numbers goes: fields are quotients and rests are
remainders by the number of keys of a cell. -/
theorem guardedWalk_eq {levels : List Nat} :
    ∀ (level : Nat) (rest : List Stage) (residual : UInt32) {block b r : Nat},
      levels.drop level = rest.map (·.bits) ++ [leaf.bits] → keyBits leaf rest < 32 →
      (∀ bits ∈ levels, bits < 32) →
      follow (stepsOf rest (keyBits leaf rest)) block residual.toNat = some (b, r) →
      ∃ word : UInt32, word.toNat = r ∧
        guardedWalk levels level rest residual (keyBits leaf rest)
          (block * 2 ^ topBits leaf rest) = some (word, b * 2 ^ leaf.bits)
  | _, [], residual, block, b, r, _, _, _, hfollow => by
    simp only [stepsOf, follow, Option.some.injEq, Prod.mk.injEq] at hfollow
    obtain ⟨rfl, rfl⟩ := hfollow
    exact ⟨residual, rfl, rfl⟩
  | level, s :: rest, residual, block, b, r, hlevels, hbits, hwidths, hfollow => by
    rw [keyBits_cons] at hbits
    have hlt : keyBits leaf rest < 32 := by omega
    have hsub : keyBits leaf (s :: rest) - s.bits = keyBits leaf rest := by
      rw [keyBits_cons, Nat.add_sub_cancel_left]
    have hnext : levels.drop (level + 1) = rest.map (·.bits) ++ [leaf.bits] := by
      rw [← List.tail_drop, hlevels]
      rfl
    have hget : levels[level + 1]? = some (topBits leaf rest) := by
      rw [← List.head?_drop, hnext, head?_bits]
    have htop := hwidths _ (List.mem_of_getElem? hget)
    have hmask := toNat_and_allOnes residual (Nat.le_of_lt hlt)
    have hguard : ¬ (keyBits leaf (s :: rest) < s.bits ∨
        32 ≤ keyBits leaf (s :: rest) - s.bits) := by
      rw [hsub, keyBits_cons]
      omega
    rw [stepsOf_cons] at hfollow
    simp only [follow] at hfollow
    split at hfollow
    · cases hfollow
    rename_i page hpage
    rw [← hmask] at hfollow
    obtain ⟨word, hword, hwalk⟩ := guardedWalk_eq (level + 1) rest _ hnext hlt hwidths hfollow
    refine ⟨word, hword, ?_⟩
    rw [guardedWalk, if_neg hguard, hsub, toNat_shiftRight_ofNat residual hlt, topBits, hpage, hget]
    simp only [if_neg (Nat.not_le.mpr (Nat.lt_trans htop (by decide : 32 < 64)))]
    exact hwalk

/-- **A lookup never makes an undefined access.** -/
theorem guardedGet_eq (t : Table) (code : UInt32) : t.guardedGet code = some (t.get code) := by
  have hwf := t.wellFormed
  have hbits := hwf.keyBits_eq
  have hlt := t.layout.keyBits_lt
  unfold guardedGet
  rw [if_neg (by omega)]
  by_cases hin : code.toNat < 2 ^ t.layout.keyBits
  · have hshift : ¬ code.toNat >>> t.layout.keyBits ≠ 0 := by
      rw [Nat.shiftRight_eq_div_pow, Nat.div_eq_of_lt hin]
      simp
    have htop : 0 < topBlocks t.leaf t.stages := by
      rw [hwf.top]
      exact Nat.one_pos
    obtain ⟨b, r, hfollow, -, -⟩ := follow_linked hwf.linked htop (hbits ▸ hin)
    obtain ⟨word, rfl, hwalk⟩ := guardedWalk_eq 0 t.stages code hwf.levels_eq (hbits ▸ hlt)
      (fun _ => Layout.level_lt) hfollow
    rw [Nat.zero_mul, hbits] at hwalk
    rw [hbits] at hfollow
    obtain ⟨v, hv, -⟩ := t.find?_route hin
    rw [if_neg hshift, hwalk, t.get_of_lt hin, hv]
    simp only [route, Route.find?, hfollow] at hv
    exact hv
  · have hle := Nat.not_lt.mp hin
    have hshift : code.toNat >>> t.layout.keyBits ≠ 0 := by
      rw [Nat.shiftRight_eq_div_pow]
      exact Nat.pos_iff_ne_zero.mp (Nat.div_pos hle (Nat.two_pow_pos _))
    rw [if_pos hshift, t.get_of_le hle]

/-- **Checking and searching are safe**: the check is defined for any parts under any layout, and in
every table that passes it the lookup of every code point is defined, comes to what `Table.get`
gives, uses the default for code points outside only, and gives a value of the width. -/
theorem access_safe :
    (∀ (layout : Layout) (stages : List Stage) (leaf : Leaf) (default : UInt32),
      guardedCheck layout stages leaf default = some (check layout stages leaf default)) ∧
    ∀ (t : Table) (code : UInt32),
      t.guardedGet code = some (t.get code) ∧
      (t.route.find? code.toNat = some (t.get code) ∨
        2 ^ t.layout.keyBits ≤ code.toNat ∧ t.get code = t.default) ∧
      t.get code ≤ t.layout.width.greatest := by
  refine ⟨guardedCheck_eq, fun t code => ⟨t.guardedGet_eq code, ?_, ?_⟩⟩
  · by_cases h : code.toNat < 2 ^ t.layout.keyBits
    · obtain ⟨v, hv, -⟩ := t.find?_route h
      rw [t.get_of_lt h, hv]
      exact .inl rfl
    · exact .inr ⟨Nat.not_lt.mp h, t.get_of_le (Nat.not_lt.mp h)⟩
  · exact of_decide_eq_true (t.fits_get code)

end Table

end Multistage
