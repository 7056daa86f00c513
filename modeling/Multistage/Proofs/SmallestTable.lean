import Multistage.Proofs.BlockSharing
import Multistage.Proofs.TableRoundTrip

/-!
# A built table is the smallest

Any table with the same layout and the same values has at least as many blocks on every level: a block
determines the values of all keys that go through it, so prefixes with different segments need
different blocks, and a built table has no more.  The bytes follow from the numbers of blocks, because
every block is referred to: the largest page number of a stage is one less than the number of blocks
below it.

* `get_eq_of_blockAt_eq` — the values behind a block do not depend on the way to it.
* `blockCount_build_le` — numbers of blocks.
* `Linked.bytes_le`, `WellFormed.leaf_bytes_le` — fewer blocks take no more bytes.
* `build_smallest` — the built table is the smallest.
-/

namespace Multistage

/-! ## Bytes from numbers of blocks -/

theorem bytesFor_mono {m n : Nat} (h : m ≤ n) : bytesFor m ≤ bytesFor n := by
  unfold bytesFor
  by_cases h8 : n ≤ 0xFF
  · rw [if_pos h8, if_pos (by omega)]
  · rw [if_neg h8]
    by_cases h16 : n ≤ 0xFFFF
    · rw [if_pos h16, if_pos (show m ≤ 0xFFFF by omega)]
      split <;> omega
    · rw [if_neg h16]
      split
      · omega
      · split <;> omega

theorem largest_eq {pages : Array Nat} {count : Nat} (hc : 0 < count)
    (h : ∀ page, page ∈ pages ↔ page < count) : largest pages = count - 1 := by
  apply Nat.le_antisymm
  · exact largest_le_iff.mpr fun page hp => Nat.le_sub_one_of_lt ((h page).mp hp)
  · exact largest_le_iff.mp (Nat.le_refl _) (count - 1) ((h _).mpr (by omega))

namespace Table

/-- A stage over linked levels takes as many bytes as its blocks and those below it say. -/
theorem Linked.stage_bytes {leaf : Leaf} {s : Stage} {rest : List Stage}
    (hw : Whole s.pages.size s.bits) (href : ∀ page, page ∈ s.pages ↔ page < topBlocks leaf rest)
    (h : Linked leaf rest) :
    s.bytes = s.blockCount * 2 ^ s.bits * bytesFor (topBlocks leaf rest - 1) := by
  rw [Stage.bytes, pageBytes, largest_eq h.topBlocks_pos href, Stage.blockCount, hw.div_mul]

/-- **Fewer blocks take no more bytes**, the levels being equally wide.  The induction is on the first
stages; the second ones are taken apart with them. -/
theorem Linked.bytes_le {leaf leaf' : Leaf} {stages : List Stage} (h : Linked leaf stages) :
    ∀ {stages' : List Stage}, Linked leaf' stages' →
      stages.map (·.bits) = stages'.map (·.bits) →
      (∀ k, topBlocks leaf (stages.drop k) ≤ topBlocks leaf' (stages'.drop k)) →
      (stages.map Stage.bytes).sum ≤ (stages'.map Stage.bytes).sum := by
  induction h with
  | leaf _ =>
    intro stages' _ _ _
    exact Nat.zero_le _
  | @stage s rest hw href hrest ih =>
    intro stages' h' hbits hcount
    cases h' with
    | leaf _ => cases hbits
    | @stage s' rest' hw' href' hrest' =>
      rw [List.map_cons, List.map_cons, List.cons.injEq] at hbits
      have hblocks : s.blockCount ≤ s'.blockCount := hcount 0
      have hbelow : topBlocks leaf rest ≤ topBlocks leaf' rest' := hcount 1
      have hfirst : s.bytes ≤ s'.bytes := by
        rw [Linked.stage_bytes hw href hrest, Linked.stage_bytes hw' href' hrest', hbits.1]
        exact Nat.mul_le_mul (Nat.mul_le_mul_right _ hblocks)
          (bytesFor_mono (Nat.sub_le_sub_right hbelow 1))
      have hothers := ih hrest' hbits.2 fun k => hcount (k + 1)
      rw [List.map_cons, List.map_cons, List.sum_cons, List.sum_cons]
      exact Nat.add_le_add hfirst hothers

theorem cellCapacity_pos (layout : Layout) : 0 < layout.cellCapacity := by
  unfold Layout.cellCapacity cellCapacity
  cases hp : layout.packed with
  | false => exact Nat.one_pos
  | true => exact Nat.pos_of_ne_zero (Width.capacity_ne_zero (layout.packable hp))

section Leaves

variable {layout : Layout} {stages : List Stage} {leaf : Leaf} {default : UInt32}

theorem WellFormed.cellCount_mul (h : WellFormed layout stages leaf default) :
    leaf.cellCount * layout.cellCapacity = leaf.blockCount * 2 ^ layout.leafBits := by
  have hwhole := ((linked_iff leaf 0 stages).mp h.linked).2.1
  have hlength : leaf.length = leaf.cellCount * layout.cellCapacity := by
    have hpacked := h.leaf_packed
    unfold Layout.cellCapacity cellCapacity Leaf.length Leaf.cellCount
    unfold Leaf.packed at hpacked
    rw [← hpacked, ← h.leaf_width]
    cases leaf.cells with
    | plain values => exact (Nat.mul_one _).symm
    | packed bytes => rfl
  rw [← hlength, Leaf.blockCount, ← h.leaf_bits, hwhole.div_mul]

theorem WellFormed.leaf_cellBytes (h : WellFormed layout stages leaf default) :
    leaf.cellBytes = if layout.packed then 1 else layout.width.bytes := by
  have hpacked := h.leaf_packed
  unfold Leaf.cellBytes
  unfold Leaf.packed at hpacked
  rw [← hpacked, ← h.leaf_width]
  cases leaf.cells <;> rfl

theorem WellFormed.leaf_bytes_le {stages' : List Stage} {leaf' : Leaf} {default' : UInt32}
    (h : WellFormed layout stages leaf default) (h' : WellFormed layout stages' leaf' default')
    (hle : leaf.blockCount ≤ leaf'.blockCount) : leaf.bytes ≤ leaf'.bytes := by
  have hcells : leaf.cellCount ≤ leaf'.cellCount := by
    apply Nat.le_of_mul_le_mul_right _ (cellCapacity_pos layout)
    rw [h.cellCount_mul, h'.cellCount_mul]
    exact Nat.mul_le_mul_right _ hle
  rw [Leaf.bytes, Leaf.bytes, h.leaf_cellBytes, h'.leaf_cellBytes]
  exact Nat.mul_le_mul_right _ hcells

end Leaves

theorem stages_length (t : Table) : t.stages.length = t.layout.stageCount := by
  rw [← t.layout.length_stageBits, ← t.wellFormed.stage_bits, List.length_map]

/-- Tables of one layout: the one with no more blocks on any level takes no more bytes. -/
theorem bytes_le_of_blockCount_le {t t' : Table} (hlayout : t'.layout = t.layout)
    (h : ∀ level < t.layout.depth, t.blockCount level ≤ t'.blockCount level) :
    t.bytes ≤ t'.bytes := by
  have hwf := t.wellFormed
  have hwf' := t'.wellFormed
  rw [hlayout] at hwf'
  have hdepth := t.layout.depth_eq
  -- past the leaves there are no more levels, and the count stays that of the leaves
  have hcount : ∀ k, topBlocks t.leaf (t.stages.drop k) ≤ topBlocks t'.leaf (t'.stages.drop k) := by
    intro k
    have hmin := h (min k t.layout.stageCount) (by omega)
    rw [t.blockCount_eq, t'.blockCount_eq] at hmin
    by_cases hk : k ≤ t.layout.stageCount
    · rwa [Nat.min_eq_left hk] at hmin
    · rw [Nat.min_eq_right (by omega), List.drop_of_length_le (by rw [stages_length]),
        List.drop_of_length_le (by rw [stages_length, hlayout])] at hmin
      rwa [List.drop_of_length_le (by rw [stages_length]; omega),
        List.drop_of_length_le (by rw [stages_length, hlayout]; omega)]
  have hleaf : t.leaf.blockCount ≤ t'.leaf.blockCount := by
    have hlast := hcount t.layout.stageCount
    rwa [List.drop_of_length_le (by rw [stages_length]),
      List.drop_of_length_le (by rw [stages_length, hlayout])] at hlast
  have hstages := hwf.linked.bytes_le hwf'.linked
    (by rw [hwf.stage_bits, hwf'.stage_bits]) hcount
  exact Nat.add_le_add hstages (hwf.leaf_bytes_le hwf' hleaf)

/-! ## Blocks that every table needs -/

theorem get_key (t : Table) {key : Nat} (h : key < 2 ^ t.layout.keyBits) :
    t.get (UInt32.ofNat key) = (t.route.find? key).getD t.default := by
  have hkey := t.layout.toNat_key h
  rw [t.get_of_lt (by rw [hkey]; exact h), hkey]

/-- **A block determines the values behind it.** -/
theorem get_eq_of_blockAt_eq (t : Table) {level p q s : Nat} (hl : level < t.layout.depth)
    (hp : p < 2 ^ t.layout.bitsAbove level) (hq : q < 2 ^ t.layout.bitsAbove level)
    (hs : s < 2 ^ t.layout.bitsFrom level) (h : t.blockAt level p = t.blockAt level q) :
    t.get (UInt32.ofNat (p * 2 ^ t.layout.bitsFrom level + s)) =
      t.get (UInt32.ofNat (q * 2 ^ t.layout.bitsFrom level + s)) := by
  rw [t.get_key (t.layout.key_lt hp hs), t.get_key (t.layout.key_lt hq hs),
    t.find?_eq_blockAt hl hp hs, t.find?_eq_blockAt hl hq hs, h]

end Table

namespace Compilation

variable {layout : Layout} {map : RangeMap} {made : Compilation}

/-- **No table with the same values has fewer blocks on a level**: take for each block of the built
table a prefix that leads to it; in the other table these lead to different blocks. -/
theorem blockCount_build_le (h : build layout map = .ok made) {t : Table} (hlayout : t.layout = layout)
    (hget : ∀ code : UInt32, code.toNat < 2 ^ layout.keyBits → t.get code = map.get code)
    {level : Nat} (hl : level < layout.depth) :
    made.table.blockCount level ≤ t.blockCount level := by
  subst hlayout
  have hreach : ∀ b < made.table.blockCount level, ∃ high < 2 ^ t.layout.bitsAbove level,
      made.table.blockAt level high = some b ∧
        ∃ c < t.blockCount level, t.blockAt level high = some c := by
    intro b hb
    obtain ⟨high, hh, hat, -⟩ := blockAt_build_first h hl hb
    obtain ⟨c, hc, hother, -⟩ := t.exists_blockAt hl hh
    exact ⟨high, hh, hat, c, hc, hother⟩
  choose! high hhigh hmade other hlt hother using hreach
  have hvalue : ∀ {p s}, p < 2 ^ t.layout.bitsAbove level → s < 2 ^ t.layout.bitsFrom level →
      t.get (UInt32.ofNat (p * 2 ^ t.layout.bitsFrom level + s)) =
        map.get (UInt32.ofNat (p * 2 ^ t.layout.bitsFrom level + s)) := by
    intro p s hp hs
    have hkey := t.layout.key_lt hp hs
    exact hget _ (by rw [t.layout.toNat_key hkey]; exact hkey)
  have hinj : ∀ a < made.table.blockCount level, ∀ b < made.table.blockCount level,
      other a = other b → a = b := by
    intro a ha b hb hab
    have hsame : t.blockAt level (high a) = t.blockAt level (high b) := by
      rw [hother a ha, hother b hb, hab]
    have hshared := (blockAt_build_eq_iff h hl (hhigh a ha) (hhigh b hb)).mpr fun s hs => by
      rw [← hvalue (hhigh a ha) hs, ← hvalue (hhigh b hb) hs]
      exact t.get_eq_of_blockAt_eq hl (hhigh a ha) (hhigh b hb) hs hsame
    rw [hmade a ha, hmade b hb] at hshared
    exact Option.some.inj hshared
  have hcard := Finset.card_le_card_of_injOn (s := Finset.range (made.table.blockCount level))
    (t := Finset.range (t.blockCount level)) other
    (fun b hb => by simpa using hlt b (by simpa using hb))
    (fun a ha b hb => hinj a (by simpa using ha) b (by simpa using hb))
  simpa using hcard

/-- **A built table is the smallest**: among all tables of its layout that give its keys the values of
the range map, it has the fewest blocks on every level and takes the fewest bytes. -/
theorem build_smallest (h : build layout map = .ok made) {t : Table} (hlayout : t.layout = layout)
    (hget : ∀ code : UInt32, code.toNat < 2 ^ layout.keyBits → t.get code = map.get code) :
    (∀ level < layout.depth, made.table.blockCount level ≤ t.blockCount level) ∧
      made.table.bytes ≤ t.bytes := by
  have hblocks : ∀ level < layout.depth, made.table.blockCount level ≤ t.blockCount level :=
    fun _ hl => blockCount_build_le h hlayout hget hl
  have hmade := (build_parts h).2.2.1
  exact ⟨hblocks, Table.bytes_le_of_blockCount_le (by rw [hlayout, hmade]) (by rwa [hmade])⟩

/-- Four keys of the same value: a table that stores their block twice is valid, and larger. -/
theorem build_smallest_doubled :
    ∃ layout map made t, Layout.ofLevels 2 [1, 1] .eight false = .ok layout ∧
      RangeMap.ofRanges [⟨0, 3, 7⟩] 0 = .ok map ∧ build layout map = .ok made ∧
      Table.ofParts layout [⟨1, #[0, 1]⟩] ⟨1, .eight, .plain #[7, 7, 7, 7]⟩ 0 = .ok t ∧
      (∀ code : UInt32, code.toNat < 4 → t.get code = map.get code) ∧
      made.table.blockCount 1 ≤ t.blockCount 1 ∧ made.table.bytes ≤ t.bytes ∧ t.bytes = 6 := by
  let layout : Layout := ⟨2, [1, 1], .eight, false, by decide, by decide, by decide, by decide,
    by decide, by decide, by decide, by decide⟩
  let map : RangeMap := ⟨[⟨0, 3, 7⟩], 0, by decide, by decide⟩
  let t : Table := ⟨layout, [⟨1, #[0, 1]⟩], ⟨1, .eight, .plain #[7, 7, 7, 7]⟩, 0, by
    have hpages (page : Nat) : page ∈ #[0, 1] ↔ page < 2 := by
      simp only [List.mem_toArray, List.mem_cons, List.not_mem_nil, or_false]
      omega
    have hvalues : ∀ v ∈ #[(7 : UInt32), 7, 7, 7], Width.eight.fits v = true := by
      intro v hv
      obtain rfl : v = 7 := by simpa using hv
      rfl
    refine (Table.check_eq_ok ..).mpr ⟨rfl, rfl, rfl, rfl, rfl, ?_, rfl, ?_⟩
    · exact .stage ⟨rfl, by decide⟩ hpages (.leaf ⟨rfl, by decide⟩)
    · intro values hcells
      cases hcells
      exact hvalues⟩
  obtain ⟨made, h⟩ := (build_eq_ok_iff layout map).mpr ⟨rfl, rfl⟩
  have hget : ∀ code : UInt32, code.toNat < 4 → t.get code = map.get code := by
    intro code hc
    have hall : ∀ n < 4, t.get (UInt32.ofNat n) = map.get (UInt32.ofNat n) := by decide
    have hcode := hall code.toNat hc
    rwa [UInt32.ofNat_toNat] at hcode
  obtain ⟨hblocks, hbytes⟩ := build_smallest h (t := t) rfl hget
  exact ⟨layout, map, made, t, rfl, rfl, h, t.ofParts_self, hget, hblocks 1 (by decide), hbytes, rfl⟩

end Compilation

end Multistage
