import Multistage.Pool
import Mathlib.Data.List.Induction
import Mathlib.Data.List.Nodup

/-!
# Sharing equal blocks loses nothing

`Pool.share` walks over the blocks of an array with a map from contents to numbers.  This file gives
its outcome without the map: the cells are the distinct blocks in the order of their first
appearance (`Pool.distinct`), and the number of a block is its place among them.

* `Places` — an index that gives entries their place among the first appearances.
* `Pool.Holds` — the invariant of the walk: what the pool contains after some blocks came in.
* `add_holds`, `addBlocks_holds` — one step and a whole run keep it.
* `share_cells`, `share_refs` — the outcome of `Pool.share`.
* `share_lookup` — the block with the number of a block has its cells.
* `mem_share_refs_iff` — the numbers given are exactly those of the blocks kept.
* `mem_share_cells_iff` — the cells that occur stay the same.
-/

namespace Multistage

/-! ## First appearances -/

section FirstAppearance

variable {β : Type} [BEq β] [LawfulBEq β]

theorem eraseDups_concat_of_mem {b : β} {seen : List β} (h : b ∈ seen) :
    (seen ++ [b]).eraseDups = seen.eraseDups := by
  have hr : [b].removeAll seen = [] := by simp [List.removeAll, h]
  rw [List.eraseDups_append, hr, List.eraseDups_nil, List.append_nil]

theorem eraseDups_concat_of_not_mem {b : β} {seen : List β} (h : b ∉ seen) :
    (seen ++ [b]).eraseDups = seen.eraseDups ++ [b] := by
  have hr : [b].removeAll seen = [b] := by simp [List.removeAll, h]
  rw [List.eraseDups_append, hr]
  rfl

theorem idxOf_eraseDups_concat {b : β} {seen : List β} (h : b ∉ seen) :
    (seen.eraseDups ++ [b]).idxOf b = seen.eraseDups.length := by
  rw [List.idxOf_append, if_neg fun hs => h (List.mem_eraseDups.mp hs)]
  simp

theorem idxOf_eraseDups_append {b : β} {seen : List β} (h : b ∈ seen) (more : List β) :
    (seen ++ more).eraseDups.idxOf b = seen.eraseDups.idxOf b := by
  rw [List.eraseDups_append, List.idxOf_append, if_pos (List.mem_eraseDups.mpr h)]

theorem getElem?_idxOf_eraseDups {b : β} {seen : List β} (h : b ∈ seen) :
    seen.eraseDups[seen.eraseDups.idxOf b]? = some b := by
  have hlt := List.idxOf_lt_length_of_mem (List.mem_eraseDups.mpr h)
  rw [List.getElem?_eq_getElem hlt, List.getElem_idxOf hlt]

theorem nodup_eraseDups (seen : List β) : seen.eraseDups.Nodup := by
  induction seen using List.reverseRecOn with
  | nil => simp
  | append_singleton seen b ih =>
    by_cases h : b ∈ seen
    · rw [eraseDups_concat_of_mem h]
      exact ih
    · rw [eraseDups_concat_of_not_mem h]
      refine List.nodup_append.mpr ⟨ih, List.nodup_singleton b, ?_⟩
      intro a ha c hc
      have hcb : c = b := List.mem_singleton.mp hc
      subst hcb
      exact fun hac => h (List.mem_eraseDups.mp (hac ▸ ha))

theorem length_eraseDups_le (seen : List β) : seen.eraseDups.length ≤ seen.length := by
  induction seen using List.reverseRecOn with
  | nil => simp
  | append_singleton seen b ih =>
    rw [List.length_append, List.length_singleton]
    by_cases h : b ∈ seen
    · rw [eraseDups_concat_of_mem h]
      omega
    · rw [eraseDups_concat_of_not_mem h, List.length_append, List.length_singleton]
      omega

theorem length_eraseDups_le_append (seen more : List β) :
    seen.eraseDups.length ≤ (seen ++ more).eraseDups.length := by
  rw [List.eraseDups_append, List.length_append]
  exact Nat.le_add_right _ _

variable [Hashable β]

/-- The index has the entries `seen`, and gives each its place among the first appearances, counted
from `first`. -/
structure Places (index : Std.HashMap β Nat) (first : Nat) (seen : List β) : Prop where
  known : ∀ b ∈ seen, index[b]? = some (seen.eraseDups.idxOf b + first)
  fresh : ∀ b ∉ seen, index[b]? = none

namespace Places

variable {index : Std.HashMap β Nat} {first : Nat} {seen : List β} {b : β}

theorem concat_of_mem (h : Places index first seen) (hb : b ∈ seen) :
    Places index first (seen ++ [b]) := by
  constructor
  · intro c hc
    have hseen : c ∈ seen := by
      rcases List.mem_append.mp hc with hc | hc
      · exact hc
      · exact List.mem_singleton.mp hc ▸ hb
    rw [eraseDups_concat_of_mem hb, h.known c hseen]
  · intro c hc
    exact h.fresh c fun hs => hc (List.mem_append_left _ hs)

theorem insert (h : Places index first seen) (hb : b ∉ seen) :
    Places (index.insert b (seen.eraseDups.length + first)) first (seen ++ [b]) := by
  constructor
  · intro c hc
    rw [eraseDups_concat_of_not_mem hb, Std.HashMap.getElem?_insert]
    by_cases hbc : b = c
    · rw [if_pos (beq_iff_eq.mpr hbc), ← hbc, idxOf_eraseDups_concat hb]
    · have hseen : c ∈ seen := by
        rcases List.mem_append.mp hc with hc | hc
        · exact hc
        · exact absurd (List.mem_singleton.mp hc).symm hbc
      rw [if_neg (by simpa using hbc), List.idxOf_append, if_pos (List.mem_eraseDups.mpr hseen),
        h.known c hseen]
  · intro c hc
    simp only [List.mem_append, List.mem_singleton, not_or] at hc
    have hbc : ¬(b == c) = true := fun hbc => hc.2 (beq_iff_eq.mp hbc).symm
    rw [Std.HashMap.getElem?_insert, if_neg hbc, h.fresh c hc.1]

end Places

end FirstAppearance

theorem getElem?_flatMap_toList {α : Type} {size s : Nat} (hs : s < size) :
    ∀ {held : List (Array α)} (k : Nat), (∀ b ∈ held, b.size = size) →
      (held.flatMap Array.toList)[k * size + s]? = held[k]?.bind (·[s]?)
  | [], _, _ => by simp
  | b :: held, 0, h => by
    have hb : b.size = size := h b (by simp)
    rw [List.flatMap_cons, List.getElem?_append_left (by simp; omega)]
    simp
  | b :: held, k + 1, h => by
    have hb : b.size = size := h b (by simp)
    have ih := getElem?_flatMap_toList hs k fun c hc => h c (List.mem_cons_of_mem _ hc)
    have hk : (k + 1) * size + s - b.toList.length = k * size + s := by
      rw [Array.length_toList, hb, Nat.succ_mul]
      omega
    rw [List.flatMap_cons, List.getElem?_append_right, hk, ih, List.getElem?_cons_succ]
    rw [Array.length_toList, hb, Nat.succ_mul]
    omega

theorem length_flatMap_toList {α : Type} {size : Nat} {held : List (Array α)}
    (h : ∀ b ∈ held, b.size = size) : (held.flatMap Array.toList).length = held.length * size := by
  induction held with
  | nil => simp
  | cons b held ih =>
    have hb : b.size = size := h b (by simp)
    rw [List.flatMap_cons, List.length_append, Array.length_toList, hb,
      ih fun c hc => h c (List.mem_cons_of_mem _ hc), List.length_cons, Nat.succ_mul]
    omega

namespace Pool

variable {α : Type}

/-! ## The blocks of an array -/

/-- The `count` blocks of `size` cells from index `start` on. -/
def blocksFrom (size : Nat) (cells : Array α) : (count start : Nat) → List (Array α)
  | 0, _ => []
  | count + 1, start =>
    cells.extract start (start + size) :: blocksFrom size cells count (start + size)

/-- The whole blocks of an array. -/
def blocks (size : Nat) (cells : Array α) : List (Array α) :=
  blocksFrom size cells (cells.size / size) 0

@[simp]
theorem length_blocksFrom (size : Nat) (cells : Array α) (count start : Nat) :
    (blocksFrom size cells count start).length = count := by
  induction count generalizing start with
  | zero => rfl
  | succ count ih => simp [blocksFrom, ih]

@[simp]
theorem length_blocks (size : Nat) (cells : Array α) :
    (blocks size cells).length = cells.size / size :=
  length_blocksFrom ..

theorem getElem?_blocksFrom (size : Nat) (cells : Array α) {count i : Nat} (start : Nat)
    (hi : i < count) :
    (blocksFrom size cells count start)[i]? =
      some (cells.extract (start + i * size) (start + i * size + size)) := by
  induction count generalizing start i with
  | zero => omega
  | succ count ih =>
    cases i with
    | zero => simp [blocksFrom]
    | succ i =>
      have hstart : start + size + i * size = start + (i + 1) * size := by
        rw [Nat.succ_mul]
        omega
      rw [blocksFrom, List.getElem?_cons_succ, ih (start + size) (by omega), hstart]

theorem getElem?_blocks {size i : Nat} {cells : Array α} (hi : i < cells.size / size) :
    (blocks size cells)[i]? = some (cells.extract (i * size) (i * size + size)) := by
  rw [blocks, getElem?_blocksFrom size cells 0 hi, Nat.zero_add]

theorem block_le_size {size i n : Nat} (hi : i < n / size) : i * size + size ≤ n := by
  have h : (i + 1) * size ≤ n / size * size := Nat.mul_le_mul_right size hi
  have := Nat.div_mul_le_self n size
  rw [Nat.succ_mul] at h
  omega

theorem size_of_mem_blocks {size : Nat} {cells b : Array α} (h : b ∈ blocks size cells) :
    b.size = size := by
  obtain ⟨i, hi⟩ := List.getElem?_of_mem h
  have hlt : i < cells.size / size := by
    simpa using (List.getElem?_eq_some_iff.mp hi).1
  rw [getElem?_blocks hlt, Option.some.injEq] at hi
  have hle := block_le_size hlt
  rw [← hi, Array.size_extract]
  omega

theorem getElem?_block {size i s : Nat} {cells : Array α} (hi : i < cells.size / size)
    (hs : s < size) :
    (cells.extract (i * size) (i * size + size))[s]? = cells[i * size + s]? := by
  have hle := block_le_size hi
  rw [Array.getElem?_extract, if_pos (by omega)]

/-! ## The walk over the blocks -/

variable [BEq α] [LawfulBEq α] [Hashable α]

/-- What a pool contains after the blocks `seen` came in. -/
structure Holds (p : Pool α) (seen : List (Array α)) : Prop where
  known : ∀ b ∈ seen, p.index[b]? = some (seen.eraseDups.idxOf b)
  fresh : ∀ b ∉ seen, p.index[b]? = none
  size_index : p.index.size = seen.eraseDups.length
  cells : p.cells.toList = seen.eraseDups.flatMap Array.toList

theorem empty_holds (size : Nat) : (empty size : Pool α).Holds [] :=
  ⟨by simp, by simp [empty], by simp [empty], by simp [empty]⟩

omit [LawfulBEq α] in
theorem Holds.places {p : Pool α} {seen : List (Array α)} (h : p.Holds seen) :
    Places p.index 0 seen :=
  ⟨h.known, h.fresh⟩

theorem Holds.concat_of_mem {p : Pool α} {seen : List (Array α)} (h : p.Holds seen)
    {block : Array α} (hm : block ∈ seen) : p.Holds (seen ++ [block]) := by
  obtain ⟨known, fresh⟩ := h.places.concat_of_mem hm
  refine ⟨known, fresh, ?_, ?_⟩
  · rw [eraseDups_concat_of_mem hm, h.size_index]
  · rw [eraseDups_concat_of_mem hm, h.cells]

theorem Holds.idxOf_concat {p : Pool α} {seen : List (Array α)} (h : p.Holds seen)
    {block : Array α} (hm : block ∉ seen) :
    (seen.eraseDups ++ [block]).idxOf block = p.index.size := by
  rw [idxOf_eraseDups_concat hm, h.size_index]

theorem Holds.concat_of_not_mem {p : Pool α} {seen : List (Array α)} (h : p.Holds seen)
    {block : Array α} (hm : block ∉ seen) :
    Holds ⟨p.blockSize, p.index.insert block p.index.size, p.cells ++ block⟩ (seen ++ [block]) := by
  obtain ⟨known, fresh⟩ := h.places.insert hm
  rw [Nat.add_zero, ← h.size_index] at known fresh
  refine ⟨known, fresh, ?_, ?_⟩
  · have hnot : block ∉ p.index := by
      intro hi
      have hf := h.fresh block hm
      rw [Std.HashMap.getElem?_eq_some_getElem hi] at hf
      cases hf
    simp only [Std.HashMap.size_insert, if_neg hnot]
    rw [eraseDups_concat_of_not_mem hm, List.length_append, h.size_index]
    rfl
  · rw [eraseDups_concat_of_not_mem hm, Array.toList_append, h.cells, List.flatMap_append]
    simp

/-- **One block**: the pool holds it, and its number is its place among the distinct blocks. -/
theorem add_holds {p : Pool α} {seen : List (Array α)} (h : p.Holds seen) (block : Array α) :
    (p.add block).2.Holds (seen ++ [block]) ∧
      (p.add block).1 = (seen ++ [block]).eraseDups.idxOf block := by
  by_cases hm : block ∈ seen
  · have hadd : p.add block = (seen.eraseDups.idxOf block, p) := by
      simp only [add, h.known block hm]
    rw [hadd, eraseDups_concat_of_mem hm]
    exact ⟨h.concat_of_mem hm, rfl⟩
  · have hadd : p.add block = (p.index.size,
        ⟨p.blockSize, p.index.insert block p.index.size, p.cells ++ block⟩) := by
      simp only [add, h.fresh block hm]
    rw [hadd, eraseDups_concat_of_not_mem hm]
    exact ⟨h.concat_of_not_mem hm, (h.idxOf_concat hm).symm⟩

omit [LawfulBEq α] in
@[simp]
theorem add_blockSize (p : Pool α) (block : Array α) : (p.add block).2.blockSize = p.blockSize := by
  unfold add
  split <;> rfl

/-- **A run of blocks**, from any pool on. -/
theorem addBlocks_holds (cells : Array α) (size : Nat) :
    ∀ (count start : Nat) {p : Pool α} (refs : Array Nat) {seen : List (Array α)},
      p.blockSize = size → p.Holds seen →
      let new := blocksFrom size cells count start
      (addBlocks cells count start p refs).1.Holds (seen ++ new) ∧
      (addBlocks cells count start p refs).2.toList =
        refs.toList ++ new.map (seen ++ new).eraseDups.idxOf
  | 0, _, p, refs, seen, _, h => by simpa [addBlocks, blocksFrom] using h
  | count + 1, start, p, refs, seen, hsize, h => by
    subst hsize
    obtain ⟨first, hfirst⟩ : ∃ b, b = cells.extract start (start + p.blockSize) := ⟨_, rfl⟩
    have hstep := add_holds h first
    have ih := addBlocks_holds cells p.blockSize count (start + p.blockSize)
      (refs.push (p.add first).1) (add_blockSize p _) hstep.1
    simp only [List.append_assoc, List.singleton_append] at ih
    simp only [addBlocks, blocksFrom, ← hfirst]
    refine ⟨ih.1, ?_⟩
    -- the number of the first block does not change with the blocks after it
    have hmem : first ∈ seen ++ [first] := by simp
    have hkeep := idxOf_eraseDups_append hmem
      (blocksFrom p.blockSize cells count (start + p.blockSize))
    rw [← hstep.2, List.append_assoc, List.singleton_append] at hkeep
    rw [ih.2, Array.toList_push, List.map_cons, hkeep, List.append_assoc, List.singleton_append]

/-! ## The outcome -/

/-- The distinct blocks of `2 ^ bits` cells, in the order of their first appearance. -/
def distinct (bits : Nat) (cells : Array α) : List (Array α) :=
  (blocks (2 ^ bits) cells).eraseDups

omit [Hashable α] in
theorem size_of_mem_distinct {bits : Nat} {cells b : Array α} (h : b ∈ distinct bits cells) :
    b.size = 2 ^ bits :=
  size_of_mem_blocks (List.mem_eraseDups.mp h)

theorem shareBlocks_holds (bits : Nat) (cells : Array α) :
    (shareBlocks (2 ^ bits) cells).1.Holds (blocks (2 ^ bits) cells) ∧
      (shareBlocks (2 ^ bits) cells).2.toList =
        (blocks (2 ^ bits) cells).map (distinct bits cells).idxOf := by
  have h := addBlocks_holds cells (2 ^ bits) (cells.size / 2 ^ bits) 0 #[] rfl
    (empty_holds (2 ^ bits))
  simpa [shareBlocks, distinct, blocks] using h

theorem share_cells (bits : Nat) (cells : Array α) :
    (share bits cells).1.toList = (distinct bits cells).flatMap Array.toList :=
  (shareBlocks_holds bits cells).1.cells

theorem share_refs (bits : Nat) (cells : Array α) :
    (share bits cells).2.toList =
      (blocks (2 ^ bits) cells).map (distinct bits cells).idxOf :=
  (shareBlocks_holds bits cells).2

@[simp]
theorem size_share_refs (bits : Nat) (cells : Array α) :
    (share bits cells).2.size = cells.size / 2 ^ bits := by
  rw [← Array.length_toList, share_refs, List.length_map, length_blocks]

@[simp]
theorem size_share_cells (bits : Nat) (cells : Array α) :
    (share bits cells).1.size = (distinct bits cells).length * 2 ^ bits := by
  rw [← Array.length_toList, share_cells, length_flatMap_toList fun _ => size_of_mem_distinct]

theorem getElem?_share_refs {bits i : Nat} {cells : Array α} (hi : i < cells.size / 2 ^ bits) :
    (share bits cells).2[i]? = some ((distinct bits cells).idxOf
      (cells.extract (i * 2 ^ bits) (i * 2 ^ bits + 2 ^ bits))) := by
  rw [← Array.getElem?_toList, share_refs, List.getElem?_map, getElem?_blocks hi]
  rfl

/-- **Nothing is lost**: the block with the number of block `i` has the cells of block `i`. -/
theorem share_lookup {bits i : Nat} {cells : Array α} (hi : i < cells.size / 2 ^ bits) :
    ∃ ref, (share bits cells).2[i]? = some ref ∧ ∀ s < 2 ^ bits,
      (share bits cells).1[ref * 2 ^ bits + s]? = cells[i * 2 ^ bits + s]? := by
  refine ⟨_, getElem?_share_refs hi, fun s hs => ?_⟩
  have hmem : cells.extract (i * 2 ^ bits) (i * 2 ^ bits + 2 ^ bits) ∈ blocks (2 ^ bits) cells :=
    List.mem_of_getElem? (getElem?_blocks hi)
  rw [← Array.getElem?_toList, share_cells,
    getElem?_flatMap_toList hs _ fun _ => size_of_mem_distinct, distinct,
    getElem?_idxOf_eraseDups hmem, Option.bind_some, getElem?_block hi hs]

theorem lt_of_mem_share_refs {bits ref : Nat} {cells : Array α}
    (h : ref ∈ (share bits cells).2) : ref < (distinct bits cells).length := by
  rw [← Array.mem_toList_iff, share_refs] at h
  obtain ⟨b, hb, rfl⟩ := List.mem_map.mp h
  exact List.idxOf_lt_length_of_mem (List.mem_eraseDups.mpr hb)

theorem mem_share_refs {bits ref : Nat} {cells : Array α}
    (h : ref < (distinct bits cells).length) : ref ∈ (share bits cells).2 := by
  rw [← Array.mem_toList_iff, share_refs]
  refine List.mem_map.mpr ⟨(distinct bits cells)[ref], ?_, ?_⟩
  · exact List.mem_eraseDups.mp (List.getElem_mem h)
  · exact (nodup_eraseDups _).idxOf_getElem ref h

theorem share_blockCount (bits : Nat) (cells : Array α) :
    (share bits cells).1.size / 2 ^ bits = (distinct bits cells).length := by
  rw [size_share_cells, Nat.mul_div_cancel _ (Nat.two_pow_pos bits)]

theorem mem_share_refs_iff (bits : Nat) (cells : Array α) (ref : Nat) :
    ref ∈ (share bits cells).2 ↔ ref < (share bits cells).1.size / 2 ^ bits := by
  rw [share_blockCount]
  exact ⟨lt_of_mem_share_refs, mem_share_refs⟩

theorem distinct_length_pos {bits : Nat} {cells : Array α} (h : 0 < cells.size / 2 ^ bits) :
    0 < (distinct bits cells).length :=
  Nat.lt_of_le_of_lt (Nat.zero_le _)
    (lt_of_mem_share_refs (Array.mem_of_getElem? (getElem?_share_refs h)))

omit [BEq α] [LawfulBEq α] [Hashable α] in
theorem mem_iff_exists_block {size : Nat} {cells : Array α} (hs : 0 < size)
    (hw : cells.size % size = 0) (a : α) : a ∈ cells ↔ ∃ b ∈ blocks size cells, a ∈ b := by
  constructor
  · intro ha
    obtain ⟨i, hi, rfl⟩ := Array.getElem_of_mem ha
    have hmul : cells.size / size * size = cells.size :=
      Nat.div_mul_cancel (Nat.dvd_of_mod_eq_zero hw)
    have hblock : i / size < cells.size / size := by
      rw [Nat.div_lt_iff_lt_mul hs, hmul]
      exact hi
    refine ⟨_, List.mem_of_getElem? (getElem?_blocks hblock), ?_⟩
    have hcell := getElem?_block hblock (Nat.mod_lt i hs)
    rw [Nat.mul_comm, Nat.div_add_mod, Array.getElem?_eq_getElem hi] at hcell
    rw [Nat.mul_comm]
    exact Array.mem_of_getElem? hcell
  · rintro ⟨b, hb, ha⟩
    obtain ⟨i, hi⟩ := List.getElem?_of_mem hb
    have hlt : i < cells.size / size := by
      simpa using (List.getElem?_eq_some_iff.mp hi).1
    rw [getElem?_blocks hlt, Option.some.injEq] at hi
    subst hi
    obtain ⟨s, hs', rfl⟩ := Array.getElem_of_mem ha
    rw [Array.getElem_extract]
    exact Array.getElem_mem _

theorem mem_share_cells_iff {bits : Nat} {cells : Array α} (hw : cells.size % 2 ^ bits = 0) (a : α) :
    a ∈ (share bits cells).1 ↔ a ∈ cells := by
  rw [mem_iff_exists_block (Nat.two_pow_pos bits) hw, ← Array.mem_toList_iff, share_cells,
    List.mem_flatMap]
  simp only [distinct, List.mem_eraseDups, Array.mem_toList_iff]

theorem share_single {bits : Nat} {cells : Array α} (h : cells.size = 2 ^ bits) :
    (share bits cells).1 = cells := by
  have hone : cells.size / 2 ^ bits = 1 := by
    rw [h, Nat.div_self (Nat.two_pow_pos bits)]
  have hblocks : blocks (2 ^ bits) cells = [cells] := by
    rw [blocks, hone]
    simp [blocksFrom, ← h]
  apply Array.toList_inj.mp
  rw [share_cells, distinct, hblocks]
  simp [List.eraseDups_cons]

end Pool

end Multistage
