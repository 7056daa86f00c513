import Multistage.Proofs.LookupSafety
import Multistage.Proofs.Reading

/-!
# Tables are read back

The reader of tables refuses levels with too many cells, and the writer stores counts and page numbers
in a fixed number of bytes.  Neither loses anything: every block of a level is referred to from the
level above it, so a level has no more blocks than the level above has cells, and no more cells than
there are keys.

* `Linked.stage_size_le`, `Linked.leaf_length_le`, `level_size_le` — cells of a level.
* `lt_pow_bytesFor` — the least width that holds the largest page number holds all of them.
* `Decoder.reads_layout`, `Decoder.reads_stages`, `Decoder.reads_leafCells` — the parts of a table.
* `Table.reads_decode` — a table is read back from its bytes, whatever follows them.
* `Table.decode_encode_stream` — the same with the bounds that it rests on.
-/

namespace Multistage

/-! ## Cells of a level -/

namespace Table

theorem topBlocks_le_size {leaf : Leaf} {s : Stage} {rest : List Stage}
    (href : ∀ page, page ∈ s.pages ↔ page < topBlocks leaf rest) :
    topBlocks leaf rest ≤ s.pages.size := by
  have hsub : List.range (topBlocks leaf rest) ⊆ s.pages.toList := by
    intro page hpage
    exact Array.mem_toList_iff.mpr ((href page).mpr (List.mem_range.mp hpage))
  have hle := (List.subperm_of_subset List.nodup_range hsub).length_le
  rwa [List.length_range, Array.length_toList] at hle

theorem Whole.size_le {cells bits above : Nat} (h : Whole cells bits)
    (hblocks : cells / 2 ^ bits ≤ 2 ^ above) : cells ≤ 2 ^ (above + bits) := by
  rw [← h.div_mul, Nat.pow_add]
  exact Nat.mul_le_mul_right _ hblocks

/-- **Cells of a stage**: one for each value of the key bits down to it, at most.  The induction is on
the stages; `above` is the number of key bits over the first of them. -/
theorem Linked.stage_size_le {leaf : Leaf} {stages : List Stage} (h : Linked leaf stages) :
    ∀ {above : Nat}, topBlocks leaf stages ≤ 2 ^ above →
      ∀ {k : Nat} {s : Stage}, stages[k]? = some s →
        s.pages.size ≤ 2 ^ (above + ((stages.take (k + 1)).map (·.bits)).sum) := by
  induction h with
  | leaf _ =>
    intro above _ k s hs
    cases hs
  | @stage first rest hw href _ ih =>
    intro above htop k s hs
    have hfirst : first.pages.size ≤ 2 ^ (above + first.bits) := hw.size_le htop
    cases k with
    | zero =>
      rw [List.getElem?_cons_zero, Option.some.injEq] at hs
      rw [← hs]
      simpa using hfirst
    | succ k =>
      rw [List.getElem?_cons_succ] at hs
      have hrest := ih (Nat.le_trans (topBlocks_le_size href) hfirst) hs
      rwa [List.take_succ_cons, List.map_cons, List.sum_cons, ← Nat.add_assoc]

/-- **Values of the leaves**: one for each key, at most. -/
theorem Linked.leaf_length_le {leaf : Leaf} {stages : List Stage} (h : Linked leaf stages) :
    ∀ {above : Nat}, topBlocks leaf stages ≤ 2 ^ above →
      leaf.length ≤ 2 ^ (above + keyBits leaf stages) := by
  induction h with
  | leaf hw =>
    intro above htop
    rw [keyBits_nil]
    exact hw.size_le htop
  | @stage first rest hw href _ ih =>
    intro above htop
    have hfirst : first.pages.size ≤ 2 ^ (above + first.bits) := hw.size_le htop
    have hrest := ih (Nat.le_trans (topBlocks_le_size href) hfirst)
    rwa [keyBits_cons, ← Nat.add_assoc]

theorem Linked.page_lt_size {leaf : Leaf} {stages : List Stage} (h : Linked leaf stages) :
    ∀ s ∈ stages, ∀ page ∈ s.pages, page < s.pages.size := by
  induction h with
  | leaf _ =>
    intro s hs
    cases hs
  | @stage first rest _ href _ ih =>
    intro s hs page hpage
    rcases List.mem_cons.mp hs with rfl | hs
    · exact Nat.lt_of_lt_of_le ((href page).mp hpage) (topBlocks_le_size href)
    · exact ih s hs page hpage

theorem WellFormed.topBlocks_le {layout : Layout} {stages : List Stage} {leaf : Leaf}
    {default : UInt32} (h : WellFormed layout stages leaf default) :
    topBlocks leaf stages ≤ 2 ^ 0 :=
  Nat.le_of_eq h.top

/-- **Cells of a level**: one for each value of the key bits down to it, at most. -/
theorem level_size_le (t : Table) {k : Nat} {shape : Nat × Nat}
    (h : (shapes t.stages t.leaf)[k]? = some shape) :
    shape.1 ≤ 2 ^ (t.layout.levels.take (k + 1)).sum := by
  have hwf := t.wellFormed
  unfold shapes at h
  rw [hwf.levels_eq]
  by_cases hk : k < t.stages.length
  · rw [List.getElem?_append_left (by simpa using hk), List.getElem?_map,
      List.getElem?_eq_getElem hk, Option.map_some, Option.some.injEq] at h
    have hsize := hwf.linked.stage_size_le hwf.topBlocks_le (List.getElem?_eq_getElem hk)
    rw [← h, List.take_append_of_le_length (by rwa [List.length_map]), ← List.map_take]
    simpa using hsize
  · have hlen : k < t.stages.length + 1 := by
      simpa using (List.getElem?_eq_some_iff.mp h).1
    have hlast : k = (t.stages.map fun s => (s.pages.size, s.bits)).length := by
      rw [List.length_map]
      omega
    rw [hlast, List.getElem?_concat_length, Option.some.injEq] at h
    have hsize := hwf.linked.leaf_length_le hwf.topBlocks_le
    rw [← h, List.take_of_length_le (by simp; omega), List.sum_append, List.sum_singleton]
    simpa [keyBits] using hsize

theorem two_pow_take_le (l : Layout) (count : Nat) :
    2 ^ (l.levels.take count).sum ≤ Wire.maxCells := by
  have hsum := (List.take_sublist count l.levels).sum_le_sum fun _ _ => Nat.zero_le _
  exact Nat.pow_le_pow_right (by omega) (Nat.le_trans hsum l.total_le)

theorem stage_size_le_maxCells (t : Table) {s : Stage} (hs : s ∈ t.stages) :
    s.pages.size ≤ Wire.maxCells := by
  obtain ⟨k, hk⟩ := List.mem_iff_getElem?.mp hs
  have hlen := (List.getElem?_eq_some_iff.mp hk).1
  have hshape : (shapes t.stages t.leaf)[k]? = some (s.pages.size, s.bits) := by
    rw [shapes, List.getElem?_append_left (by simpa using hlen), List.getElem?_map, hk,
      Option.map_some]
  exact Nat.le_trans (t.level_size_le hshape) (two_pow_take_le t.layout _)

theorem WellFormed.cellCount_le_length {layout : Layout} {stages : List Stage} {leaf : Leaf}
    {default : UInt32} (h : WellFormed layout stages leaf default) :
    leaf.cellCount ≤ leaf.length := by
  unfold Leaf.cellCount Leaf.length
  cases hc : leaf.cells with
  | plain values => exact Nat.le_refl _
  | packed bytes =>
    exact Nat.le_mul_of_pos_right _ (Nat.pos_of_ne_zero (h.capacity_ne_zero hc))

theorem leaf_cellCount_le_maxCells (t : Table) : t.leaf.cellCount ≤ Wire.maxCells := by
  have hshape : (shapes t.stages t.leaf)[(t.stages.map fun s => (s.pages.size, s.bits)).length]? =
      some (t.leaf.length, t.leaf.bits) := List.getElem?_concat_length
  calc t.leaf.cellCount ≤ t.leaf.length := t.wellFormed.cellCount_le_length
    _ ≤ _ := t.level_size_le hshape
    _ ≤ Wire.maxCells := two_pow_take_le t.layout _

end Table

/-! ## Widths of page numbers -/

theorem foldl_max_le_iff {n : Nat} :
    ∀ (ns : List Nat) (acc : Nat), ns.foldl max acc ≤ n ↔ acc ≤ n ∧ ∀ m ∈ ns, m ≤ n
  | [], acc => by simp
  | m :: ns, acc => by
    rw [List.foldl_cons, foldl_max_le_iff ns (max acc m), Nat.max_le, List.forall_mem_cons, and_assoc]

theorem largest_le_iff {ns : Array Nat} {n : Nat} : largest ns ≤ n ↔ ∀ m ∈ ns, m ≤ n := by
  unfold largest
  rw [← Array.foldl_toList, foldl_max_le_iff]
  simp

theorem bytesFor_cases (n : Nat) : bytesFor n = 1 ∨ bytesFor n = 2 ∨ bytesFor n = 4 := by
  unfold bytesFor
  split
  · exact .inl rfl
  split
  · exact .inr (.inl rfl)
  · exact .inr (.inr rfl)

theorem lt_pow_bytesFor {n : Nat} (h : n < 256 ^ 4) : n < 256 ^ bytesFor n := by
  unfold bytesFor
  split
  · omega
  split
  · omega
  · exact h

theorem Stage.page_lt {s : Stage} (h : ∀ page ∈ s.pages, page < 256 ^ 4) :
    ∀ page ∈ s.pages, page < 256 ^ s.cellBytes := by
  intro page hpage
  have hle : page ≤ largest s.pages := largest_le_iff.mp (Nat.le_refl _) page hpage
  have hlargest : largest s.pages ≤ 256 ^ 4 - 1 :=
    largest_le_iff.mpr fun m hm => Nat.le_sub_one_of_lt (h m hm)
  exact Nat.lt_of_le_of_lt hle (lt_pow_bytesFor (by omega))

theorem Width.toNat_lt_of_fits {w : Width} {v : UInt32} (h : w.fits v = true) :
    v.toNat < 256 ^ w.bytes := by
  have hlt := (w.fits_iff v).mp h
  have hle : 2 ^ w.bits ≤ 256 ^ w.bytes := by
    cases w <;> decide
  omega

/-! ## Parts of a table -/

namespace Decoder

theorem reads_stage {s : Stage} (hsize : s.pages.size ≤ Wire.maxCells)
    (hpages : ∀ page ∈ s.pages, page < 256 ^ 4) : Reads (stage s.bits) (Wire.stage s) s := by
  have hwidth : s.cellBytes < 256 ^ 1 := by
    rcases bytesFor_cases (largest s.pages) with h | h | h <;> rw [Stage.cellBytes, h] <;> decide
  have hcells : Reads (many s.pages.size (cell s.cellBytes))
      (s.pages.toList.flatMap (Wire.number s.cellBytes)) s.pages := by
    have hpage : ∀ page ∈ s.pages.toList,
        Reads (cell s.cellBytes) (Wire.number s.cellBytes page) page := by
      intro page hpage
      exact reads_cell (bytesFor_cases _) (Stage.page_lt hpages page (Array.mem_toList_iff.mp hpage))
    exact reads_many s.pages.toList hpage
  unfold Wire.stage
  rw [List.append_assoc]
  exact (reads_cellCount hsize).bind ((reads_number 1 hwidth).bind (hcells.last (reads_pure s)))

/-- **The stages**, each with the width that the layout gives it. -/
theorem reads_stages : ∀ {levels : List Stage},
    (∀ s ∈ levels, s.pages.size ≤ Wire.maxCells ∧ ∀ page ∈ s.pages, page < 256 ^ 4) →
      Reads (stages (levels.map (·.bits))) (levels.flatMap Wire.stage) levels
  | [], _ => reads_pure []
  | s :: rest, h => by
    have hfirst := h s (by simp)
    have hrest := reads_stages fun s' hs' => h s' (List.mem_cons_of_mem s hs')
    exact (reads_stage hfirst.1 hfirst.2).bind (hrest.last (reads_pure (s :: rest)))

/-- **The leaves**, packed or plain as the layout says. -/
theorem reads_leafCells {l : Layout} {levels : List Stage} {leaf : Leaf} {default : UInt32}
    (h : Table.WellFormed l levels leaf default) (hcount : leaf.cellCount ≤ Wire.maxCells) :
    Reads (leafCells l) (Wire.leaf leaf) leaf.cells := by
  refine (reads_cellCount hcount).bind ?_
  have hpacked := h.leaf_packed
  unfold Wire.leafCells Leaf.cellCount
  unfold Leaf.packed at hpacked
  cases hc : leaf.cells with
  | packed bytes =>
    rw [hc] at hpacked
    rw [if_pos hpacked.symm]
    have hbytes := reads_bytes bytes.toList
    exact hbytes.last (reads_pure _)
  | plain values =>
    rw [hc] at hpacked
    have hplain : ¬ l.packed = true := by
      rw [← hpacked]
      exact Bool.false_ne_true
    rw [if_neg hplain, h.leaf_width]
    have hvalues := reads_many values.toList fun v hv =>
      reads_word (Width.toNat_lt_of_fits (h.values_fit values hc v (Array.mem_toList_iff.mp hv)))
    exact hvalues.last (reads_pure _)

/-- **The layout and the default.** -/
theorem reads_layout (l : Layout) (default : UInt32) :
    Reads layout (Wire.layout l default) (l, default) := by
  have hkey := l.keyBits_lt
  have hdomain : l.domainBits < 256 ^ 1 := by
    have := l.domain_le_total
    unfold Layout.keyBits at hkey
    omega
  have hdepth : l.depth < 256 ^ 1 := by
    have := l.depth_le_keyBits
    omega
  have hlevels : Reads (many l.depth (number 1)) (l.levels.flatMap (Wire.number 1))
      l.levels.toArray := by
    refine reads_many l.levels fun bits hbits => reads_number 1 ?_
    have := Layout.level_lt hbits
    omega
  have hwidth : l.width.bits < 256 ^ 1 := by
    cases l.width <;> decide
  have hword : Reads (word 4) (Wire.number 4 default.toNat) default := reads_word default.toNat_lt
  unfold Wire.layout
  simp only [List.append_assoc]
  rw [← List.append_assoc Wire.tableMark]
  refine (reads_header rfl (by decide)).bind ?_
  refine (reads_number 1 hdomain).bind ((reads_number 1 hdepth).bind (hlevels.bind ?_))
  refine (reads_number 1 hwidth).bind ?_
  refine (reads_loaded l.width.ofBits_bits).bind ?_
  refine (reads_flag _ l.packed).bind (hword.last ?_)
  exact (reads_loaded l.ofLevels_self).last (reads_pure (l, default))

end Decoder

/-! ## Tables -/

namespace Table

theorem ofParts_self (t : Table) : ofParts t.layout t.stages t.leaf t.default = .ok t := by
  unfold ofParts
  split
  · rename_i e he
    rw [t.checked] at he
    cases he
  · rfl

/-- **A table is read back from its bytes**, whatever follows them. -/
theorem reads_decode (t : Table) : Decoder.Reads decode t.encode t := by
  have hwf := t.wellFormed
  have hstages : ∀ s ∈ t.stages,
      s.pages.size ≤ Wire.maxCells ∧ ∀ page ∈ s.pages, page < 256 ^ 4 := by
    intro s hs
    have hsize := t.stage_size_le_maxCells hs
    refine ⟨hsize, fun page hpage => ?_⟩
    have hlt := hwf.linked.page_lt_size s hs page hpage
    exact Nat.lt_of_lt_of_le hlt (Nat.le_trans hsize (by decide))
  have hread := Decoder.reads_stages hstages
  rw [hwf.stage_bits] at hread
  have hleaf : (⟨t.layout.leafBits, t.layout.width, t.leaf.cells⟩ : Leaf) = t.leaf := by
    rw [← hwf.leaf_bits, ← hwf.leaf_width]
  unfold encode
  rw [List.append_assoc]
  refine (Decoder.reads_layout t.layout t.default).bind (hread.bind ?_)
  refine (Decoder.reads_leafCells hwf t.leaf_cellCount_le_maxCells).last ?_
  rw [hleaf]
  exact Decoder.reads_checked t.ofParts_self

/-- **Tables in a stream.**  From data that start with the bytes of a table the reader takes exactly
these, gives the table and leaves the rest.  Level `k` has at most one cell for each value of the key
bits down to it, so never more than are read: every number of cells comes back from its four bytes and
is accepted, and the number of levels comes back from its byte.  A packed cell of the leaves holds
several values, so there are no more cells than values. -/
theorem decode_encode_stream (t : Table) :
    (∀ rest, decode (t.encode ++ rest) = .ok (t, rest)) ∧
    (∀ k < t.layout.depth, ∃ cells bits, (shapes t.stages t.leaf)[k]? = some (cells, bits) ∧
      cells ≤ 2 ^ (t.layout.levels.take (k + 1)).sum ∧
      2 ^ (t.layout.levels.take (k + 1)).sum ≤ 2 ^ 24) ∧
    t.leaf.cellCount ≤ t.leaf.length ∧
    (∀ s ∈ t.stages, Decoder.Reads Decoder.cellCount (Wire.number 4 s.pages.size) s.pages.size) ∧
    Decoder.Reads Decoder.cellCount (Wire.number 4 t.leaf.cellCount) t.leaf.cellCount ∧
    Decoder.Reads (Decoder.number 1) (Wire.number 1 t.layout.depth) t.layout.depth := by
  have hwf := t.wellFormed
  refine ⟨t.reads_decode, fun k hk => ?_, hwf.cellCount_le_length, fun s hs => ?_, ?_, ?_⟩
  · have hlen : k < (shapes t.stages t.leaf).length := by
      rw [Layout.depth, hwf.levels_eq] at hk
      simpa [shapes] using hk
    refine ⟨_, _, List.getElem?_eq_getElem hlen, ?_, two_pow_take_le t.layout _⟩
    exact t.level_size_le (List.getElem?_eq_getElem hlen)
  · exact Decoder.reads_cellCount (t.stage_size_le_maxCells hs)
  · exact Decoder.reads_cellCount t.leaf_cellCount_le_maxCells
  · have hdepth := t.layout.depth_le_keyBits
    have hkey := t.layout.keyBits_lt
    exact Decoder.reads_number 1 (by omega)

/-- Two equal blocks of packed leaves that no build would keep apart, with a byte after the table; the
last level has as many values as its bound allows. -/
theorem decode_encode_stream_doubled :
    ∃ t : Table, t.stages = [⟨1, #[1, 0]⟩] ∧
      t.leaf = ⟨2, .four, .packed #[0x21, 0x43, 0x21, 0x43]⟩ ∧
      decode [0x43, 0x50, 0x54, 0x52, 1, 0, 2, 2, 1, 2, 4, 1, 9, 0, 0, 0, 2, 0, 0, 0, 1, 1, 0,
        4, 0, 0, 0, 0x21, 0x43, 0x21, 0x43, 0xFF] = .ok (t, [0xFF]) ∧
      (shapes t.stages t.leaf)[1]? = some (8, 2) ∧
      8 ≤ 2 ^ (t.layout.levels.take 2).sum ∧ 2 ^ (t.layout.levels.take 2).sum ≤ 2 ^ 24 := by
  let layout : Layout := ⟨2, [1, 2], .four, true, by decide, by decide, by decide, by decide,
    by decide, by decide, by decide, by decide⟩
  let t : Table := ⟨layout, [⟨1, #[1, 0]⟩], ⟨2, .four, .packed #[0x21, 0x43, 0x21, 0x43]⟩, 9,
    by decide +kernel⟩
  obtain ⟨hread, hlevels, -⟩ := decode_encode_stream t
  obtain ⟨cells, bits, hshape, hcells, hbound⟩ := hlevels 1 (by decide)
  have hlast : (shapes t.stages t.leaf)[1]? = some (8, 2) := by decide +kernel
  have hbytes : t.encode ++ [0xFF] = [0x43, 0x50, 0x54, 0x52, 1, 0, 2, 2, 1, 2, 4, 1, 9, 0, 0, 0, 2,
      0, 0, 0, 1, 1, 0, 4, 0, 0, 0, 0x21, 0x43, 0x21, 0x43, 0xFF] := by decide +kernel
  rw [hlast] at hshape
  cases hshape
  exact ⟨t, rfl, rfl, hbytes ▸ hread [0xFF], hlast, hcells, hbound⟩

end Table

end Multistage
