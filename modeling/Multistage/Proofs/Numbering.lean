import Multistage.Proofs.BuildCorrect
import Mathlib.Data.Finset.Card

/-!
# Which blocks get the same number

Blocks are numbered by first appearance, so the numbers do not depend on what the blocks contain but
only on which of them are equal.  Two ways of cutting an array that keep the same blocks apart give
the same numbers, and the levels of a table are such ways: packing several values into a byte, and
replacing the blocks of a level by their numbers, both keep equal blocks equal and others apart.

* `idxOf_eraseDups_congr` — places among the distinct entries depend on the equal entries only.
* `exists_first` — numbers appear in order: what stands before the first entry with a number has a
  smaller one.
* `share_refs_eq_iff` — two blocks have one number exactly if they are equal.
* `share_refs_of_cut` — numbers of blocks of blocks.
* `stack_refs` — the numbers above some stages are those of the long blocks of the values.
* `leafOf_refs` — packed or not, the leaves number the blocks of the values.
-/

namespace Multistage

/-! ## Places among the distinct entries -/

section Numbering

variable {ι β γ : Type} [BEq β] [LawfulBEq β] [BEq γ] [LawfulBEq γ]

/-- Two ways `f` and `g` to name the same keys, which give two keys one name in the same cases. -/
theorem idxOf_eraseDups_congr {f : ι → β} {g : ι → γ} (keys : List ι)
    (h : ∀ a ∈ keys, ∀ b ∈ keys, f a = f b ↔ g a = g b) :
    (keys.map f).eraseDups.length = (keys.map g).eraseDups.length ∧
      ∀ a ∈ keys, (keys.map f).eraseDups.idxOf (f a) = (keys.map g).eraseDups.idxOf (g a) := by
  induction keys using List.reverseRecOn with
  | nil => simp
  | append_singleton keys k ih =>
    obtain ⟨hlen, hidx⟩ := ih fun a ha b hb => h a (by simp [ha]) b (by simp [hb])
    have hk : ∀ a ∈ keys, f a = f k ↔ g a = g k := fun a ha => h a (by simp [ha]) k (by simp)
    have hmem : f k ∈ keys.map f ↔ g k ∈ keys.map g := by
      simp only [List.mem_map]
      exact exists_congr fun a => and_congr_right fun ha => hk a ha
    rw [List.map_append, List.map_append, List.map_singleton, List.map_singleton]
    by_cases hf : f k ∈ keys.map f
    · have hg := hmem.mp hf
      rw [eraseDups_concat_of_mem hf, eraseDups_concat_of_mem hg]
      refine ⟨hlen, fun a ha => ?_⟩
      rcases List.mem_append.mp ha with ha | ha
      · exact hidx a ha
      · -- the name of the last key has been given before, to some key `b`
        obtain rfl := List.mem_singleton.mp ha
        obtain ⟨b, hb, hfb⟩ := List.mem_map.mp hf
        rw [← hfb, ← (hk b hb).mp hfb]
        exact hidx b hb
    · have hg := mt hmem.mpr hf
      rw [eraseDups_concat_of_not_mem hf, eraseDups_concat_of_not_mem hg]
      refine ⟨by simp [hlen], fun a ha => ?_⟩
      rcases List.mem_append.mp ha with ha | ha
      · rw [List.idxOf_append, List.idxOf_append,
          if_pos (List.mem_eraseDups.mpr (List.mem_map_of_mem ha)),
          if_pos (List.mem_eraseDups.mpr (List.mem_map_of_mem ha))]
        exact hidx a ha
      · obtain rfl := List.mem_singleton.mp ha
        rw [List.idxOf_append, List.idxOf_append, if_neg (mt List.mem_eraseDups.mp hf),
          if_neg (mt List.mem_eraseDups.mp hg), hlen]
        simp

/-- **Numbers appear in order**: some entry has the number, and those before it have smaller ones. -/
theorem exists_first (entries : List β) {n : Nat} (h : n < entries.eraseDups.length) :
    ∃ (i : Nat) (b : β), entries[i]? = some b ∧ entries.eraseDups.idxOf b = n ∧
      ∀ j < i, ∀ c, entries[j]? = some c → entries.eraseDups.idxOf c < n := by
  induction entries using List.reverseRecOn with
  | nil => simp at h
  | append_singleton seen b ih =>
    by_cases hb : b ∈ seen
    · rw [eraseDups_concat_of_mem hb] at h ⊢
      obtain ⟨i, a, ha, hn, hbefore⟩ := ih h
      have hi := (List.getElem?_eq_some_iff.mp ha).1
      refine ⟨i, a, ?_, hn, fun j hj c hc => hbefore j hj c ?_⟩
      · rwa [List.getElem?_append_left hi]
      · rwa [List.getElem?_append_left (by omega)] at hc
    · rw [eraseDups_concat_of_not_mem hb] at h ⊢
      have hold : ∀ c ∈ seen, (seen.eraseDups ++ [b]).idxOf c = seen.eraseDups.idxOf c := by
        intro c hc
        rw [List.idxOf_append, if_pos (List.mem_eraseDups.mpr hc)]
      have hnew : (seen.eraseDups ++ [b]).idxOf b = seen.eraseDups.length := by
        rw [List.idxOf_append, if_neg (mt List.mem_eraseDups.mp hb)]
        simp
      rw [List.length_append, List.length_singleton] at h
      by_cases hn : n < seen.eraseDups.length
      · obtain ⟨i, a, ha, hidx, hbefore⟩ := ih hn
        have hi := (List.getElem?_eq_some_iff.mp ha).1
        refine ⟨i, a, ?_, ?_, fun j hj c hc => ?_⟩
        · rwa [List.getElem?_append_left hi]
        · rw [hold a (List.mem_of_getElem? ha), hidx]
        · rw [List.getElem?_append_left (by omega)] at hc
          rw [hold c (List.mem_of_getElem? hc)]
          exact hbefore j hj c hc
      · refine ⟨seen.length, b, by simp, by omega, fun j hj c hc => ?_⟩
        rw [List.getElem?_append_left hj] at hc
        rw [hold c (List.mem_of_getElem? hc)]
        have := List.idxOf_lt_length_of_mem (List.mem_eraseDups.mpr (List.mem_of_getElem? hc))
        omega

end Numbering

theorem div_mod_cell {size s : Nat} (k : Nat) (hs : s < size) :
    (k * size + s) / size = k ∧ (k * size + s) % size = s := by
  refine ⟨?_, ?_⟩
  · rw [Nat.mul_comm, Nat.mul_add_div (by omega), Nat.div_eq_of_lt hs, Nat.add_zero]
  · rw [Nat.mul_comm, Nat.mul_add_mod, Nat.mod_eq_of_lt hs]

namespace Pool

section Cut

variable {α β : Type}

theorem blocks_eq_map (size : Nat) (cells : Array α) :
    blocks size cells =
      (List.range (cells.size / size)).map fun i => cells.extract (i * size) (i * size + size) := by
  apply List.ext_getElem?
  intro i
  rw [List.getElem?_map]
  by_cases hi : i < cells.size / size
  · rw [getElem?_blocks hi, List.getElem?_range hi, Option.map_some]
  · rw [List.getElem?_eq_none (by simpa using hi), List.getElem?_eq_none (by simpa using hi),
      Option.map_none]

theorem block_eq_iff {size i j : Nat} {cells : Array α} (hi : i < cells.size / size)
    (hj : j < cells.size / size) :
    cells.extract (i * size) (i * size + size) = cells.extract (j * size) (j * size + size) ↔
      ∀ s < size, cells[i * size + s]? = cells[j * size + s]? := by
  constructor
  · intro h s hs
    rw [← getElem?_block hi hs, h, getElem?_block hj hs]
  · intro h
    have hsize : ∀ {k}, k < cells.size / size →
        (cells.extract (k * size) (k * size + size)).size = size := fun hk =>
      size_of_mem_blocks (List.mem_of_getElem? (getElem?_blocks hk))
    apply Array.ext_getElem?
    intro s
    by_cases hs : s < size
    · rw [getElem?_block hi hs, getElem?_block hj hs, h s hs]
    · rw [Array.getElem?_eq_none (by rw [hsize hi]; omega),
        Array.getElem?_eq_none (by rw [hsize hj]; omega)]

/-- A long block consists of short ones. -/
theorem long_block_eq_iff {c d i j : Nat} {cells : Array α} (hi : i < cells.size / 2 ^ (d + c))
    (hj : j < cells.size / 2 ^ (d + c)) :
    cells.extract (i * 2 ^ (d + c)) (i * 2 ^ (d + c) + 2 ^ (d + c)) =
        cells.extract (j * 2 ^ (d + c)) (j * 2 ^ (d + c) + 2 ^ (d + c)) ↔
      ∀ s < 2 ^ d,
        cells.extract ((i * 2 ^ d + s) * 2 ^ c) ((i * 2 ^ d + s) * 2 ^ c + 2 ^ c) =
          cells.extract ((j * 2 ^ d + s) * 2 ^ c) ((j * 2 ^ d + s) * 2 ^ c + 2 ^ c) := by
  have hshort : ∀ {k s}, k < cells.size / 2 ^ (d + c) → s < 2 ^ d →
      k * 2 ^ d + s < cells.size / 2 ^ c := by
    intro k s hk hs
    rw [Nat.add_comm, Nat.pow_add, ← Nat.div_div_eq_div_mul] at hk
    exact Nat.lt_of_lt_of_le (Table.cell_lt hk hs) (Nat.div_mul_le_self _ _)
  have hplace := Compilation.place_of_cut
  rw [block_eq_iff hi hj]
  constructor
  · intro h s hs
    rw [block_eq_iff (hshort hi hs) (hshort hj hs)]
    intro r hr
    obtain ⟨hdiv, hmod⟩ := div_mod_cell s hr
    have hlt : s * 2 ^ c + r < 2 ^ (d + c) := by
      rw [Nat.pow_add]
      exact Table.cell_lt hs hr
    have hcell := h (s * 2 ^ c + r) hlt
    rwa [← hplace i d c, ← hplace j d c, hdiv, hmod] at hcell
  · intro h s hs
    have hfield : s / 2 ^ c < 2 ^ d := by
      rw [Nat.div_lt_iff_lt_mul (Nat.two_pow_pos c), ← Nat.pow_add]
      exact hs
    have hblock := (block_eq_iff (hshort hi hfield) (hshort hj hfield)).mp (h _ hfield)
    rw [← hplace i d c, ← hplace j d c]
    exact hblock _ (Nat.mod_lt _ (Nat.two_pow_pos c))

variable [BEq α] [LawfulBEq α] [Hashable α] [BEq β] [LawfulBEq β] [Hashable β]

/-- **Two blocks have one number exactly if they are equal.** -/
theorem share_refs_eq_iff {bits i j : Nat} {cells : Array α} (hi : i < cells.size / 2 ^ bits)
    (hj : j < cells.size / 2 ^ bits) :
    (share bits cells).2[i]? = (share bits cells).2[j]? ↔
      cells.extract (i * 2 ^ bits) (i * 2 ^ bits + 2 ^ bits) =
        cells.extract (j * 2 ^ bits) (j * 2 ^ bits + 2 ^ bits) := by
  have hmem : cells.extract (i * 2 ^ bits) (i * 2 ^ bits + 2 ^ bits) ∈ distinct bits cells :=
    List.mem_eraseDups.mpr (List.mem_of_getElem? (getElem?_blocks hi))
  rw [getElem?_share_refs hi, getElem?_share_refs hj, Option.some.injEq, List.idxOf_inj hmem]

/-- **Blocks of blocks**: an array with one entry for each short block of `cells`, equal where the
short blocks are, has blocks with the numbers of the long blocks. -/
theorem share_refs_of_cut {xs : Array β} {cells : Array α} {c : Nat}
    (hsize : xs.size = cells.size / 2 ^ c)
    (h : ∀ i < xs.size, ∀ j < xs.size, xs[i]? = xs[j]? ↔
      cells.extract (i * 2 ^ c) (i * 2 ^ c + 2 ^ c) = cells.extract (j * 2 ^ c) (j * 2 ^ c + 2 ^ c))
    (d : Nat) : (share d xs).2 = (share (d + c) cells).2 := by
  have hcount : xs.size / 2 ^ d = cells.size / 2 ^ (d + c) := by
    rw [hsize, Nat.div_div_eq_div_mul, ← Nat.pow_add, Nat.add_comm]
  have hkeys : ∀ i ∈ List.range (cells.size / 2 ^ (d + c)),
      ∀ j ∈ List.range (cells.size / 2 ^ (d + c)),
      xs.extract (i * 2 ^ d) (i * 2 ^ d + 2 ^ d) = xs.extract (j * 2 ^ d) (j * 2 ^ d + 2 ^ d) ↔
        cells.extract (i * 2 ^ (d + c)) (i * 2 ^ (d + c) + 2 ^ (d + c)) =
          cells.extract (j * 2 ^ (d + c)) (j * 2 ^ (d + c) + 2 ^ (d + c)) := by
    intro i hi j hj
    rw [List.mem_range] at hi hj
    have hlt : ∀ {k s}, k < cells.size / 2 ^ (d + c) → s < 2 ^ d → k * 2 ^ d + s < xs.size := by
      intro k s hk hs
      rw [← hcount] at hk
      exact Nat.lt_of_lt_of_le (Table.cell_lt hk hs) (Nat.div_mul_le_self _ _)
    rw [block_eq_iff (by omega) (by omega), long_block_eq_iff hi hj]
    exact forall_congr' fun s => imp_congr_right fun hs => h _ (hlt hi hs) _ (hlt hj hs)
  apply Array.toList_inj.mp
  rw [share_refs, share_refs, distinct, distinct, blocks_eq_map, blocks_eq_map, hcount,
    List.map_map, List.map_map]
  exact List.map_congr_left (idxOf_eraseDups_congr _ hkeys).2

theorem share_share_refs (d c : Nat) (cells : Array α) :
    (share d (share c cells).2).2 = (share (d + c) cells).2 := by
  refine share_refs_of_cut (size_share_refs c cells) (fun i hi j hj => ?_) d
  rw [size_share_refs] at hi hj
  exact share_refs_eq_iff hi hj

omit [Hashable α] in
theorem length_distinct (bits : Nat) (cells : Array α) [DecidableEq α] :
    (distinct bits cells).length = (blocks (2 ^ bits) cells).toFinset.card := by
  have hset : (distinct bits cells).toFinset = (blocks (2 ^ bits) cells).toFinset := by
    ext b
    rw [List.mem_toFinset, List.mem_toFinset, distinct, List.mem_eraseDups]
  rw [← hset]
  exact (List.toFinset_card_of_nodup (nodup_eraseDups _)).symm

end Cut

end Pool

namespace Compilation

/-- **The numbers above some stages** are those of the long blocks of the cells at the bottom. -/
theorem stack_refs {α : Type} [BEq α] [LawfulBEq α] [Hashable α] (c : Nat) (cells : Array α) :
    ∀ widths : List Nat,
      (stack widths (Pool.share c cells).2).2 = (Pool.share (widths.sum + c) cells).2
  | [] => by rw [List.sum_nil, Nat.zero_add]; rfl
  | bits :: widths => by
    have ih := stack_refs c cells widths
    show (Pool.share bits (stack widths (Pool.share c cells).2).2).2 = _
    rw [ih, Pool.share_share_refs, List.sum_cons, Nat.add_assoc]

theorem packAll_eq_iff {w : Width} {c : Nat} (hcap : Packing.capacity w.bits = 2 ^ c)
    {dense : Array UInt32} (hfit : ∀ v ∈ dense, w.fits v = true) {i j : Nat}
    (hi : i < dense.size / 2 ^ c) (hj : j < dense.size / 2 ^ c) :
    (Packing.packAll w.bits dense)[i]? = (Packing.packAll w.bits dense)[j]? ↔
      dense.extract (i * 2 ^ c) (i * 2 ^ c + 2 ^ c) =
        dense.extract (j * 2 ^ c) (j * 2 ^ c + 2 ^ c) := by
  have hpos := Nat.two_pow_pos c
  have hne : Packing.capacity w.bits ≠ 0 := by omega
  constructor
  · intro h
    rw [Pool.block_eq_iff hi hj]
    intro s hs
    have hread : ∀ {k}, k < dense.size / 2 ^ c →
        dense[k * 2 ^ c + s]? = (Packing.packAll w.bits dense)[k]?.map (Packing.slot w.bits · s) := by
      intro k hk
      have hcell := Pool.block_le_size hk
      obtain ⟨hdiv, hmod⟩ := div_mod_cell k hs
      rw [← get?_packAll_of_fits hne hfit (by omega), Packing.get?, if_neg hne, hcap, hdiv, hmod]
    rw [hread hi, hread hj, h]
  · intro h
    have hbyte : ∀ {k}, k < dense.size / 2 ^ c → (Packing.packAll w.bits dense)[k]? =
        some (Packing.pack w.bits (dense.extract (k * 2 ^ c) (k * 2 ^ c + 2 ^ c)).toList) := by
      intro k hk
      have hk' : k < (dense.size + 2 ^ c - 1) / 2 ^ c :=
        Nat.lt_of_lt_of_le hk (Nat.div_le_div_right (by omega))
      rw [← Array.getElem?_toList, Packing.packAll_toList, hcap, List.getElem?_map,
        Pool.getElem?_blocksFrom _ _ 0 hk', Nat.zero_add]
      rfl
    rw [hbyte hi, hbyte hj, h]

/-- **Packed or not, the leaves number the blocks of the values.** -/
theorem leafOf_refs (layout : Layout) {dense : Array UInt32}
    (hsize : dense.size = 2 ^ layout.keyBits) (hfit : ∀ v ∈ dense, layout.width.fits v = true) :
    (leafOf layout dense).2 = (Pool.share layout.leafBits dense).2 := by
  unfold leafOf
  cases hp : layout.packed with
  | false => rfl
  | true =>
    obtain ⟨hcap, hle⟩ := capacity_eq_two_pow hp
    have hpos := Nat.two_pow_pos (packedBits layout)
    have hkey : packedBits layout ≤ layout.keyBits := Nat.le_trans hle layout.leafBits_le_keyBits
    have hbytes : (Packing.packAll layout.width.bits dense).size =
        dense.size / 2 ^ packedBits layout := by
      refine Packing.size_packAll_of_mul (by omega) ?_
      rw [hcap, hsize, Nat.pow_div hkey (by omega), ← Nat.pow_add, Nat.sub_add_cancel hkey]
    show (Pool.share (layout.leafBits - packedBits layout)
      (Packing.packAll layout.width.bits dense)).2 = _
    rw [Pool.share_refs_of_cut hbytes, Nat.sub_add_cancel hle]
    intro i hi j hj
    rw [hbytes] at hi hj
    exact packAll_eq_iff hcap hfit hi hj

end Compilation

end Multistage
