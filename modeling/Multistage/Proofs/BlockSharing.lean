import Multistage.Proofs.Numbering

/-!
# Blocks are shared exactly if the values are equal

The stages above a level lead from the high bits of a key to a block of that level.  In a table that
was built, two prefixes lead to one block exactly if the values of all keys that continue them are the
same, so a level has one block for each distinct segment of the values.

* `Table.blockAt` — the block of a level that a prefix of the key leads to.
* `exists_blockAt` — in every table it exists; `find?_eq_blockAt` — a lookup goes through it.
* `blockAt_build` — in a table that was built it has the number of the segment of the prefix.
* `blocks_shared_iff` — blocks, segments, and the order of the blocks.
-/

namespace Multistage

namespace Layout

/-- Number of key bits above a level. -/
def bitsAbove (l : Layout) (level : Nat) : Nat :=
  (l.levels.take level).sum

/-- Number of key bits of a level and of those below it. -/
def bitsFrom (l : Layout) (level : Nat) : Nat :=
  (l.levels.drop level).sum

theorem bitsAbove_add_bitsFrom (l : Layout) (level : Nat) :
    l.bitsAbove level + l.bitsFrom level = l.keyBits := by
  rw [bitsAbove, bitsFrom, ← List.sum_append, List.take_append_drop, keyBits]

theorem key_lt (l : Layout) {level high low : Nat} (hh : high < 2 ^ l.bitsAbove level)
    (hlow : low < 2 ^ l.bitsFrom level) : high * 2 ^ l.bitsFrom level + low < 2 ^ l.keyBits := by
  rw [← l.bitsAbove_add_bitsFrom level, Nat.pow_add]
  exact Table.cell_lt hh hlow

theorem bitsAbove_eq (l : Layout) {level : Nat} (h : level < l.depth) :
    l.bitsAbove level = (l.stageBits.take level).sum := by
  have hle : level ≤ l.stageBits.length := by
    rw [l.length_stageBits]
    have := l.depth_eq
    omega
  rw [bitsAbove, ← l.stageBits_append, List.take_append_of_le_length hle]

theorem bitsFrom_eq (l : Layout) {level : Nat} (h : level < l.depth) :
    l.bitsFrom level = (l.stageBits.drop level).sum + l.leafBits := by
  have hle : level ≤ l.stageBits.length := by
    rw [l.length_stageBits]
    have := l.depth_eq
    omega
  rw [bitsFrom, ← l.stageBits_append, List.drop_append_of_le_length hle, List.sum_append,
    List.sum_singleton]

end Layout

namespace Table

/-! ## From prefixes of the key to blocks -/

/-- Number of blocks of a level; the leaves come after the stages. -/
def blockCount (t : Table) (level : Nat) : Nat :=
  match t.stages[level]? with
  | some s => s.blockCount
  | none => t.leaf.blockCount

/-- The block of a level that the stages above it lead to from the high bits of a key. -/
def blockAt (t : Table) (level high : Nat) : Option Nat :=
  (follow (stepsOf (t.stages.take level) (t.layout.bitsAbove level)) 0 high).map (·.1)

theorem blockCount_eq (t : Table) (level : Nat) :
    t.blockCount level = topBlocks t.leaf (t.stages.drop level) := by
  unfold blockCount
  rw [← List.head?_drop]
  cases t.stages.drop level <;> rfl

/-- Leaves of single cells, in the place of the blocks of a level. -/
def stub (count : Nat) : Leaf :=
  ⟨0, .thirtyTwo, .plain (Array.replicate count 0)⟩

@[simp]
theorem blockCount_stub (count : Nat) : (stub count).blockCount = count := by
  simp [stub, Leaf.blockCount, Leaf.length]

theorem whole_stub {count : Nat} (h : 0 < count) : Whole (stub count).length (stub count).bits := by
  simp only [stub, Leaf.length, Array.size_replicate]
  exact ⟨Nat.mod_one count, by omega⟩

theorem keyBits_stub (count : Nat) (stages : List Stage) :
    keyBits (stub count) stages = (stages.map (·.bits)).sum :=
  rfl

theorem topBlocks_stub_take (leaf : Leaf) (stages : List Stage) (k : Nat) :
    topBlocks (stub (topBlocks leaf (stages.drop k))) (stages.take k) = topBlocks leaf stages := by
  cases k with
  | zero => exact blockCount_stub _
  | succ k =>
    cases stages with
    | nil => exact blockCount_stub _
    | cons s rest => rfl

theorem Linked.topBlocks_pos {leaf : Leaf} {stages : List Stage} (h : Linked leaf stages) :
    0 < topBlocks leaf stages := by
  cases h with
  | leaf hw => exact hw.blocks_pos
  | stage hw _ _ => exact hw.blocks_pos

/-- The stages above a level, with the blocks of the level in the place of the leaves. -/
theorem Linked.take {leaf : Leaf} {stages : List Stage} (h : Linked leaf stages) :
    ∀ k, Linked (stub (topBlocks leaf (stages.drop k))) (stages.take k) := by
  induction h with
  | leaf hw =>
    intro k
    rw [List.drop_nil, List.take_nil]
    exact .leaf (whole_stub hw.blocks_pos)
  | @stage s rest hw href hrest ih =>
    intro k
    cases k with
    | zero => exact .leaf (whole_stub hw.blocks_pos)
    | succ k =>
      refine .stage hw (fun page => ?_) (ih k)
      rw [List.drop_succ_cons, topBlocks_stub_take]
      exact href page

theorem WellFormed.bitsAbove_eq {layout : Layout} {stages : List Stage} {leaf : Leaf}
    {default : UInt32} (h : WellFormed layout stages leaf default) {level : Nat}
    (hl : level < layout.depth) :
    ((stages.take level).map (·.bits)).sum = layout.bitsAbove level := by
  rw [layout.bitsAbove_eq hl, ← h.stage_bits, List.map_take]

/-- **Every prefix leads to a block of the level.** -/
theorem exists_blockAt (t : Table) {level high : Nat} (hl : level < t.layout.depth)
    (hh : high < 2 ^ t.layout.bitsAbove level) :
    ∃ b < t.blockCount level, t.blockAt level high = some b ∧
      follow (stepsOf (t.stages.take level) (t.layout.bitsAbove level)) 0 high = some (b, 0) := by
  have hwf := t.wellFormed
  have hbits := hwf.bitsAbove_eq hl
  have htop : 0 < topBlocks (stub (topBlocks t.leaf (t.stages.drop level)))
      (t.stages.take level) := by
    rw [topBlocks_stub_take]
    exact hwf.linked.topBlocks_pos
  have hkey : high < 2 ^ keyBits (stub (topBlocks t.leaf (t.stages.drop level)))
      (t.stages.take level) := by
    rw [keyBits_stub, hbits]
    exact hh
  obtain ⟨b, r, hfollow, hb, hr⟩ := follow_linked (hwf.linked.take level) htop hkey
  rw [keyBits_stub, hbits] at hfollow
  rw [blockCount_stub, ← t.blockCount_eq] at hb
  have hr0 : r = 0 := Nat.lt_one_iff.mp hr
  subst hr0
  exact ⟨b, hb, by rw [blockAt, hfollow, Option.map_some], hfollow⟩

/-- The high bits are used up by the stages above, and the stages below see the low bits. -/
theorem follow_append (below : List Stage) {bits low : Nat} (hlow : low < 2 ^ bits) :
    ∀ (above : List Stage) (block : Nat) {high : Nat}, high < 2 ^ (above.map (·.bits)).sum →
      follow (stepsOf (above ++ below) ((above.map (·.bits)).sum + bits)) block
          (high * 2 ^ bits + low) =
        (follow (stepsOf above (above.map (·.bits)).sum) block high).bind fun p =>
          follow (stepsOf below bits) p.1 low
  | [], block, high, hh => by
    have h0 : high = 0 := Nat.lt_one_iff.mp hh
    subst h0
    simp [stepsOf, follow]
  | s :: above, block, high, _ => by
    obtain ⟨upper, hupper⟩ : ∃ upper, upper = (above.map (·.bits)).sum := ⟨_, rfl⟩
    obtain ⟨hdiv, hmod⟩ := div_mod_cell high hlow
    -- the field of the key is the field of its high bits, and what is left of both goes on
    have hfield : (high * 2 ^ bits + low) / 2 ^ (upper + bits) = high / 2 ^ upper := by
      rw [Nat.add_comm upper, Nat.pow_add, ← Nat.div_div_eq_div_mul, hdiv]
    have hrest : (high * 2 ^ bits + low) % 2 ^ (upper + bits) =
        high % 2 ^ upper * 2 ^ bits + low := by
      rw [Nat.add_comm upper, Nat.pow_add, Nat.mod_mul, hdiv, hmod, Nat.mul_comm, Nat.add_comm]
    have ih := fun page => follow_append below hlow above page
      (Nat.mod_lt high (Nat.two_pow_pos (above.map (·.bits)).sum))
    rw [← hupper] at ih
    simp only [List.cons_append, List.map_cons, List.sum_cons, ← hupper, stepsOf, Nat.add_assoc,
      Nat.add_sub_cancel_left, follow, hfield, hrest]
    cases s.pages[block * 2 ^ s.bits + high / 2 ^ upper]? with
    | none => rfl
    | some page => exact ih page

/-- **A lookup goes through the block of its prefix**: from there the low bits decide. -/
theorem find?_eq_blockAt (t : Table) {level high low : Nat} (hl : level < t.layout.depth)
    (hh : high < 2 ^ t.layout.bitsAbove level) (hlow : low < 2 ^ t.layout.bitsFrom level) :
    t.route.find? (high * 2 ^ t.layout.bitsFrom level + low) =
      (t.blockAt level high).bind fun b =>
        (follow (stepsOf (t.stages.drop level) (t.layout.bitsFrom level)) b low).bind fun p =>
          t.leaf.get? (p.1 * 2 ^ t.leaf.bits + p.2) := by
  have hbits := t.wellFormed.bitsAbove_eq hl
  have happ := follow_append (t.stages.drop level) hlow (t.stages.take level) 0 (hbits ▸ hh)
  rw [List.take_append_drop, hbits, t.layout.bitsAbove_add_bitsFrom] at happ
  obtain ⟨b, -, hat, hfollow⟩ := t.exists_blockAt hl hh
  rw [hfollow, Option.bind_some] at happ
  simp only [route, Route.find?]
  rw [happ, hat, Option.bind_some]
  cases follow (stepsOf (t.stages.drop level) (t.layout.bitsFrom level)) b low <;> rfl

end Table

namespace Compilation

open Table

/-! ## The blocks of a built table -/

theorem stack_append (below : List Nat) (refs : Array Nat) :
    ∀ above : List Nat,
      stagesOf (above ++ below) refs =
        stagesOf above (stack below refs).2 ++ stagesOf below refs ∧
      (stack (above ++ below) refs).2 = (stack above (stack below refs).2).2
  | [] => ⟨rfl, rfl⟩
  | bits :: above => by
    obtain ⟨hstages, hrefs⟩ := stack_append below refs above
    refine ⟨?_, ?_⟩
    · rw [List.cons_append, stagesOf_cons, stagesOf_cons, hstages, hrefs, List.cons_append]
    · show (Pool.share bits (stack (above ++ below) refs).2).2 = _
      rw [hrefs]
      rfl

theorem length_stagesOf (widths : List Nat) (refs : Array Nat) :
    (stagesOf widths refs).length = widths.length := by
  rw [← List.length_map (f := (·.bits)), stagesOf_bits]

variable {layout : Layout} {map : RangeMap} {made : Compilation}

theorem segments_eq (layout : Layout) (map : RangeMap) (level : Nat) :
    (map.dense layout.keyBits).size / 2 ^ layout.bitsFrom level =
      2 ^ layout.bitsAbove level := by
  have hadd := layout.bitsAbove_add_bitsFrom level
  rw [size_dense_key, Nat.pow_div (by omega) (by omega)]
  congr 1
  omega

/-- Stages above and below a level, and the block numbers between them. -/
theorem stageLevels_cut (hw : map.requireWidth layout.width = .ok ()) {level : Nat}
    (hl : level < layout.depth) :
    (stageLevels layout map).take level = stagesOf (layout.stageBits.take level)
        (Pool.share (layout.bitsFrom level) (map.dense layout.keyBits)).2 ∧
      (stageLevels layout map).drop level =
        stagesOf (layout.stageBits.drop level) (leafLevel layout map).2 ∧
      (stack (layout.stageBits.drop level) (leafLevel layout map).2).2 =
        (Pool.share (layout.bitsFrom level) (map.dense layout.keyBits)).2 := by
  have hlen : (layout.stageBits.take level).length = level := by
    rw [List.length_take, layout.length_stageBits]
    have := layout.depth_eq
    omega
  have hbetween : (stack (layout.stageBits.drop level) (leafLevel layout map).2).2 =
      (Pool.share (layout.bitsFrom level) (map.dense layout.keyBits)).2 := by
    rw [leafLevel, leafOf_refs layout (size_dense_key layout map) (fits_dense hw), stack_refs,
      layout.bitsFrom_eq hl]
  have hsplit := (stack_append (layout.stageBits.drop level) (leafLevel layout map).2
    (layout.stageBits.take level)).1
  rw [List.take_append_drop, hbetween] at hsplit
  refine ⟨?_, ?_, hbetween⟩
  · rw [stageLevels, hsplit, List.take_left' (by rw [length_stagesOf, hlen])]
  · rw [stageLevels, hsplit, List.drop_left' (by rw [length_stagesOf, hlen])]

/-- **The block of a prefix** has the number of the segment of the prefix. -/
theorem blockAt_build (h : build layout map = .ok made) {level high : Nat}
    (hl : level < layout.depth) (hh : high < 2 ^ layout.bitsAbove level) :
    made.table.blockAt level high =
      (Pool.share (layout.bitsFrom level) (map.dense layout.keyBits)).2[high]? := by
  obtain ⟨-, hw, hlayout, hstages, -, -⟩ := build_parts h
  obtain ⟨htake, -, -⟩ := stageLevels_cut hw hl
  have hcount := segments_eq layout map level
  obtain ⟨refs, hrefs⟩ : ∃ refs, refs =
    (Pool.share (layout.bitsFrom level) (map.dense layout.keyBits)).2 := ⟨_, rfl⟩
  have hsize : refs.size = 1 * 2 ^ (layout.stageBits.take level).sum := by
    rw [hrefs, Pool.size_share_refs, hcount, Nat.one_mul, layout.bitsAbove_eq hl]
  have hmem : ∀ page, page ∈ refs ↔ page <
      (stub (Pool.distinct (layout.bitsFrom level) (map.dense layout.keyBits)).length).blockCount := by
    intro page
    rw [hrefs, blockCount_stub, Pool.mem_share_refs_iff, Pool.share_blockCount]
  have hpos : 0 < (Pool.distinct (layout.bitsFrom level) (map.dense layout.keyBits)).length := by
    apply Pool.distinct_length_pos
    rw [hcount]
    exact Nat.two_pow_pos _
  -- the stages above form a stack over the blocks of the level
  have hst := stack_stacked (whole_stub hpos) hmem (layout.stageBits.take level) Nat.one_pos hsize
  have hbits : keyBits (stub (Pool.distinct (layout.bitsFrom level)
      (map.dense layout.keyBits)).length) (stagesOf (layout.stageBits.take level) refs) =
      layout.bitsAbove level := by
    rw [keyBits_stub, stagesOf_bits, layout.bitsAbove_eq hl]
  obtain ⟨block, ref, hblock, href, hfollow⟩ := hst.reach 0 Nat.one_pos high (hbits ▸ hh)
  rw [hst.single.2, Option.some.injEq] at hblock
  subst hblock
  rw [hbits] at hfollow
  have hplace : (0 * 2 ^ keyBits (stub (Pool.distinct (layout.bitsFrom level)
      (map.dense layout.keyBits)).length) (stagesOf (layout.stageBits.take level) refs) + high) /
      2 ^ (0 : Nat) = high := by
    rw [Nat.zero_mul, Nat.zero_add, Nat.pow_zero, Nat.div_one]
  rw [blockAt, hstages, hlayout, htake, ← hrefs, hfollow, Option.map_some, ← href]
  exact congrArg (refs[·]?) hplace

/-- **Blocks of a level**: as many as there are distinct segments. -/
theorem blockCount_build (h : build layout map = .ok made) {level : Nat}
    (hl : level < layout.depth) : made.table.blockCount level =
      (Pool.distinct (layout.bitsFrom level) (map.dense layout.keyBits)).length := by
  obtain ⟨-, hw, -, hstages, hleaf, -⟩ := build_parts h
  obtain ⟨-, hdrop, hbetween⟩ := stageLevels_cut hw hl
  have hcov := leafLevel_covers hw
  have hsize : (leafLevel layout map).2.size =
      2 ^ (layout.stageBits.take level).sum * 2 ^ (layout.stageBits.drop level).sum := by
    rw [← Nat.pow_add, ← List.sum_append, List.take_append_drop, size_leafLevel_refs hw]
  have hst := stack_stacked hcov.whole hcov.mem_refs (layout.stageBits.drop level)
    (Nat.two_pow_pos _) hsize
  rw [Table.blockCount_eq, hstages, hleaf, hdrop]
  -- both numbers have the block numbers of the level below them
  apply eq_of_forall_lt_iff
  intro page
  rw [← hst.mem_up, hbetween, Pool.mem_share_refs_iff, Pool.share_blockCount]

theorem blockAt_build_eq_iff (h : build layout map = .ok made) {level p q : Nat}
    (hl : level < layout.depth) (hp : p < 2 ^ layout.bitsAbove level)
    (hq : q < 2 ^ layout.bitsAbove level) :
    made.table.blockAt level p = made.table.blockAt level q ↔
      ∀ s < 2 ^ layout.bitsFrom level,
        map.get (UInt32.ofNat (p * 2 ^ layout.bitsFrom level + s)) =
          map.get (UInt32.ofNat (q * 2 ^ layout.bitsFrom level + s)) := by
  have hcount := segments_eq layout map level
  rw [← hcount] at hp hq
  rw [blockAt_build h hl (hcount ▸ hp), blockAt_build h hl (hcount ▸ hq),
    Pool.share_refs_eq_iff hp hq, Pool.block_eq_iff hp hq]
  rw [hcount] at hp hq
  refine forall_congr' fun s => imp_congr_right fun hs => ?_
  rw [getElem?_dense_key layout map (layout.key_lt hp hs),
    getElem?_dense_key layout map (layout.key_lt hq hs), Option.some.injEq]

theorem blockAt_build_first (h : build layout map = .ok made) {level b : Nat}
    (hl : level < layout.depth) (hb : b < made.table.blockCount level) :
    ∃ p < 2 ^ layout.bitsAbove level, made.table.blockAt level p = some b ∧
      ∀ q < p, ∃ a < b, made.table.blockAt level q = some a := by
  have hcount := segments_eq layout map level
  rw [blockCount_build h hl] at hb
  obtain ⟨p, block, hblock, hnumber, hbefore⟩ := exists_first _ hb
  have hp : p < 2 ^ layout.bitsAbove level := by
    rw [← hcount, ← Pool.length_blocks]
    exact (List.getElem?_eq_some_iff.mp hblock).1
  have hat : ∀ {q c}, q < 2 ^ layout.bitsAbove level →
      (Pool.blocks (2 ^ layout.bitsFrom level) (map.dense layout.keyBits))[q]? = some c →
      made.table.blockAt level q =
        some ((Pool.distinct (layout.bitsFrom level) (map.dense layout.keyBits)).idxOf c) := by
    intro q c hq hc
    rw [blockAt_build h hl hq, ← Array.getElem?_toList, Pool.share_refs, List.getElem?_map, hc]
    rfl
  refine ⟨p, hp, ?_, fun q hq => ?_⟩
  · rw [hat hp hblock]
    exact congrArg some hnumber
  · have hq' : q < 2 ^ layout.bitsAbove level := Nat.lt_trans hq hp
    have hlt : q < (map.dense layout.keyBits).size / 2 ^ layout.bitsFrom level := by
      rw [hcount]
      exact hq'
    have hc := Pool.getElem?_blocks hlt
    exact ⟨_, hbefore q hq _ hc, hat hq' hc⟩

/-- **Blocks are shared exactly if the values are equal.**  At every level of a table that was built:
every prefix of the key leads to a block, two of them to the same one exactly if the values of all
keys that continue them agree; there is one block for each distinct segment of the values; and the
blocks are numbered in the order of the first prefixes that lead to them. -/
theorem blocks_shared_iff (h : build layout map = .ok made) {level : Nat}
    (hl : level < layout.depth) :
    (∀ p < 2 ^ layout.bitsAbove level, ∀ q < 2 ^ layout.bitsAbove level,
      ∃ a b, made.table.blockAt level p = some a ∧ made.table.blockAt level q = some b ∧
        (a = b ↔ ∀ s < 2 ^ layout.bitsFrom level,
          map.get (UInt32.ofNat (p * 2 ^ layout.bitsFrom level + s)) =
            map.get (UInt32.ofNat (q * 2 ^ layout.bitsFrom level + s)))) ∧
    made.table.blockCount level =
      (Pool.blocks (2 ^ layout.bitsFrom level) (map.dense layout.keyBits)).toFinset.card ∧
    ∀ b < made.table.blockCount level, ∃ p < 2 ^ layout.bitsAbove level,
      made.table.blockAt level p = some b ∧
        ∀ q < p, ∃ a < b, made.table.blockAt level q = some a := by
  have hlayout := (build_parts h).2.2.1
  refine ⟨fun p hp q hq => ?_, ?_, fun b hb => blockAt_build_first h hl hb⟩
  · obtain ⟨a, -, ha, -⟩ := made.table.exists_blockAt (hlayout ▸ hl) (hlayout ▸ hp)
    obtain ⟨b, -, hb, -⟩ := made.table.exists_blockAt (hlayout ▸ hl) (hlayout ▸ hq)
    refine ⟨a, b, ha, hb, ?_⟩
    rw [← blockAt_build_eq_iff h hl hp hq, ha, hb, Option.some.injEq]
  · rw [blockCount_build h hl, Pool.length_distinct]

/-- Six bits under a key of seven: the two parts of the padding share a block of the middle level. -/
theorem blocks_shared_iff_padded :
    ∃ layout map made, Layout.ofLevels 6 [2, 2, 3] .four true = .ok layout ∧
      RangeMap.ofRanges [⟨5, 5, 1⟩, ⟨17, 40, 2⟩, ⟨63, 63, 3⟩] 9 = .ok map ∧
      build layout map = .ok made ∧
      (∃ a, made.table.blockAt 1 2 = some a ∧ made.table.blockAt 1 3 = some a) ∧
      made.table.blockAt 1 0 ≠ made.table.blockAt 1 1 := by
  let layout : Layout := ⟨6, [2, 2, 3], .four, true, by decide, by decide, by decide, by decide,
    by decide, by decide, by decide, by decide⟩
  let map : RangeMap := ⟨[⟨5, 5, 1⟩, ⟨17, 40, 2⟩, ⟨63, 63, 3⟩], 9, by decide, by decide⟩
  obtain ⟨made, h⟩ := (build_eq_ok_iff layout map).mpr ⟨rfl, rfl⟩
  have hl : 1 < layout.depth := by decide
  obtain ⟨hshared, -, -⟩ := blocks_shared_iff h hl
  obtain ⟨a, b, ha, hb, hab⟩ := hshared 2 (by decide) 3 (by decide)
  obtain ⟨c, d, hc, hd, hcd⟩ := hshared 0 (by decide) 1 (by decide)
  obtain rfl : a = b := hab.mpr (by decide)
  refine ⟨layout, map, made, rfl, rfl, h, ⟨a, ha, hb⟩, ?_⟩
  rw [hc, hd, ne_eq, Option.some.injEq, hcd]
  exact fun hno => absurd (hno 5 (by decide)) (by decide)

end Compilation

end Multistage
