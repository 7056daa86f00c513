import Multistage.Proofs.Layout
import Multistage.Table.Check

/-!
# What the check of a table accepts

`Table.check` goes over the parts of a table in a fixed order and reports the first failure.  This
file says what it accepts without that order.

* `Table.Linked` — each level consists of whole blocks, and the page numbers of a stage are exactly
  the numbers of the blocks of the next level.
* `Table.WellFormed` — linked levels, one block at the top, of the widths of the layout, with values
  that have room in it.
* `check_eq_ok` — the check accepts exactly the well-formed parts.
-/

namespace Multistage

namespace Table

/-- Number of blocks of the first of some stages over the leaves, of the leaves if there is none. -/
def topBlocks (leaf : Leaf) : List Stage → Nat
  | [] => leaf.blockCount
  | s :: _ => s.blockCount

/-- A row of cells that consists of at least one block of `2 ^ bits`, and no part of one. -/
def Whole (cells bits : Nat) : Prop :=
  cells % 2 ^ bits = 0 ∧ cells ≠ 0

/-- Stages over leaves: whole blocks, and each stage refers to the blocks of the next level and to
all of them. -/
inductive Linked (leaf : Leaf) : List Stage → Prop
  | leaf : Whole leaf.length leaf.bits → Linked leaf []
  | stage {s : Stage} {rest : List Stage} : Whole s.pages.size s.bits →
      (∀ page, page ∈ s.pages ↔ page < topBlocks leaf rest) → Linked leaf rest →
      Linked leaf (s :: rest)

/-- Parts that form a table. -/
structure WellFormed (layout : Layout) (stages : List Stage) (leaf : Leaf) (default : UInt32) :
    Prop where
  stage_bits : stages.map (·.bits) = layout.stageBits
  leaf_bits : leaf.bits = layout.leafBits
  leaf_width : leaf.width = layout.width
  leaf_packed : leaf.packed = layout.packed
  top : topBlocks leaf stages = 1
  linked : Linked leaf stages
  default_fits : layout.width.fits default = true
  values_fit : ∀ values, leaf.cells = .plain values →
    ∀ v ∈ values, layout.width.fits v = true

/-! ## Shapes -/

theorem Whole.div_mul {cells bits : Nat} (h : Whole cells bits) :
    cells / 2 ^ bits * 2 ^ bits = cells :=
  Nat.div_mul_cancel (Nat.dvd_of_mod_eq_zero h.1)

theorem Whole.blocks_pos {cells bits : Nat} (h : Whole cells bits) : 0 < cells / 2 ^ bits :=
  Nat.pos_of_ne_zero fun h0 => h.2 (by rw [← h.div_mul, h0, Nat.zero_mul])

theorem Whole.eq_block_iff {cells bits : Nat} (h : Whole cells bits) :
    cells = 2 ^ bits ↔ cells / 2 ^ bits = 1 := by
  constructor
  · intro he
    rw [he, Nat.div_self (Nat.two_pow_pos bits)]
  · intro he
    rw [← h.div_mul, he, Nat.one_mul]

theorem checkShape_eq_ok (level declared cells bits : Nat) :
    checkShape level declared (cells, bits) = .ok () ↔
      bits = declared ∧ Whole cells bits ∧ (level = 0 → cells / 2 ^ bits = 1) := by
  unfold checkShape
  by_cases hr : bits ≠ declared ∨ cells % 2 ^ declared ≠ 0 ∨ cells = 0
  · simp only [if_pos hr]
    constructor
    · intro h
      cases h
    · rintro ⟨rfl, hw, _⟩
      rcases hr with h | h | h
      · exact absurd rfl h
      · exact absurd hw.1 h
      · exact absurd h hw.2
  · have hd : bits = declared := Classical.byContradiction fun h => hr (.inl h)
    subst hd
    have hw : Whole cells bits :=
      ⟨Classical.byContradiction fun h => hr (.inr (.inl h)), fun h => hr (.inr (.inr h))⟩
    by_cases ht : level = 0 ∧ cells ≠ 2 ^ bits
    · simp only [if_neg hr, if_pos ht]
      constructor
      · intro h
        cases h
      · rintro ⟨_, _, h⟩
        exact absurd (hw.eq_block_iff.mpr (h ht.1)) ht.2
    · simp only [if_neg hr, if_neg ht, true_iff]
      refine ⟨trivial, hw, fun h0 => hw.eq_block_iff.mp ?_⟩
      exact Classical.byContradiction fun h => ht ⟨h0, h⟩

/-- The shapes of all levels.  The induction is on the stages; the level is general, since only the
first level of all has to be a single block. -/
theorem checkShapes_eq_ok (leaf : Leaf) (leafBits : Nat) :
    ∀ (level : Nat) (widths : List Nat) (stages : List Stage), stages.length = widths.length →
      (checkShapes level (widths ++ [leafBits]) (shapes stages leaf) = .ok () ↔
        stages.map (·.bits) = widths ∧ leaf.bits = leafBits ∧
        (∀ s ∈ stages, Whole s.pages.size s.bits) ∧ Whole leaf.length leaf.bits ∧
        (level = 0 → topBlocks leaf stages = 1))
  | level, [], [], _ => by
    have hone : checkShapes level [leafBits] [(leaf.length, leaf.bits)] =
        checkShape level leafBits (leaf.length, leaf.bits) := by
      simp only [checkShapes]
      split <;> simp_all
    simp only [shapes, List.map_nil, List.nil_append]
    rw [hone, checkShape_eq_ok]
    simp [topBlocks, Leaf.blockCount]
  | level, width :: widths, s :: stages, hlen => by
    have ih := checkShapes_eq_ok leaf leafBits (level + 1) widths stages (by simpa using hlen)
    have hcons : shapes (s :: stages) leaf = (s.pages.size, s.bits) :: shapes stages leaf := rfl
    rw [hcons, List.cons_append, checkShapes]
    cases hc : checkShape level width (s.pages.size, s.bits) with
    | error e =>
      have hno := mt (checkShape_eq_ok level width s.pages.size s.bits).mpr (by rw [hc]; simp)
      constructor
      · intro h
        cases h
      · rintro ⟨hb, _, hw, _, ht⟩
        rw [List.map_cons, List.cons.injEq] at hb
        exact absurd ⟨hb.1, hw s (by simp), ht⟩ hno
    | ok _ =>
      obtain ⟨hb, hw, ht⟩ := (checkShape_eq_ok level width s.pages.size s.bits).mp hc
      simp only [ih, List.map_cons, List.cons.injEq, List.forall_mem_cons]
      constructor
      · rintro ⟨h1, h2, h3, h4, _⟩
        exact ⟨⟨hb, h1⟩, h2, ⟨hw, h3⟩, h4, ht⟩
      · rintro ⟨⟨_, h1⟩, h2, ⟨_, h3⟩, h4, _⟩
        exact ⟨h1, h2, h3, h4, fun h => absurd h (Nat.succ_ne_zero level)⟩

/-! ## References -/

/-- Marks of the page numbers that occur, over marks already made. -/
theorem getElem?_marks (b : Nat) :
    ∀ (pages : List Nat) (marks : Array Bool),
      (pages.foldl (fun marks page => marks.setIfInBounds page true) marks)[b]? =
        if b ∈ pages ∧ b < marks.size then some true else marks[b]?
  | [], marks => by simp
  | page :: rest, marks => by
    rw [List.foldl_cons, getElem?_marks b rest, Array.size_setIfInBounds,
      Array.getElem?_setIfInBounds]
    by_cases hlt : b < marks.size
    · by_cases hb : page = b
      · subst hb
        simp [hlt]
      · have hne : ¬ b = page := fun h => hb h.symm
        simp [hlt, hb, hne]
    · have hnone : marks[b]? = none := by simpa using hlt
      by_cases hb : page = b
      · subst hb
        simp [hlt]
      · simp [hlt, hb]

theorem unused?_eq_none (pages : Array Nat) (count : Nat) :
    unused? pages count = none ↔ ∀ b < count, b ∈ pages := by
  have hmark : ∀ b, (pages.foldl (fun marks page => marks.setIfInBounds page true)
      (Array.replicate count false))[b]? =
        if b ∈ pages.toList ∧ b < count then some true
        else (Array.replicate count false)[b]? := by
    intro b
    rw [← Array.foldl_toList, getElem?_marks, Array.size_replicate]
  simp only [unused?, Array.findIdx?_eq_none_iff]
  constructor
  · intro h b hb
    refine Classical.byContradiction fun hno => ?_
    have hfalse := hmark b
    rw [if_neg (fun hin => hno (Array.mem_toList_iff.mp hin.1)), Array.getElem?_replicate,
      if_pos hb] at hfalse
    have := h false (Array.mem_of_getElem? hfalse)
    simp at this
  · intro h mark hm
    obtain ⟨b, hb⟩ := Array.getElem?_of_mem hm
    rw [hmark b] at hb
    by_cases hlt : b < count
    · rw [if_pos ⟨Array.mem_toList_iff.mpr (h b hlt), hlt⟩, Option.some.injEq] at hb
      simp [← hb]
    · rw [if_neg (fun hin => hlt hin.2), Array.getElem?_replicate, if_neg hlt] at hb
      cases hb

theorem checkPages_eq_ok (level : Nat) (pages : Array Nat) (blocks : Nat) :
    checkPages level pages blocks = .ok () ↔ ∀ page, page ∈ pages ↔ page < blocks := by
  unfold checkPages
  cases hf : pages.find? (blocks ≤ ·) with
  | some page =>
    have hmem := Array.mem_of_find?_eq_some hf
    have hle : blocks ≤ page := by simpa using Array.find?_some hf
    constructor
    · intro h
      cases h
    · intro h
      have := (h page).mp hmem
      omega
  | none =>
    have hlt : ∀ page ∈ pages, page < blocks := by
      intro page hp
      simpa using Array.find?_eq_none.mp hf page hp
    cases hu : unused? pages blocks with
    | some block =>
      have hno := mt (unused?_eq_none pages blocks).mpr (by rw [hu]; simp)
      constructor
      · intro h
        cases h
      · intro h
        exact absurd (fun b hb => (h b).mpr hb) hno
    | none =>
      have hall := (unused?_eq_none pages blocks).mp hu
      simp only [true_iff]
      exact fun page => ⟨hlt page, hall page⟩

theorem checkReferences_cons (leaf : Leaf) (level : Nat) (s : Stage) (rest : List Stage) :
    checkReferences leaf level (s :: rest) =
      match checkPages level s.pages (topBlocks leaf rest) with
      | .error e => .error e
      | .ok () => checkReferences leaf (level + 1) rest := by
  cases rest <;> rfl

theorem linked_iff (leaf : Leaf) :
    ∀ (level : Nat) (stages : List Stage), Linked leaf stages ↔
      (∀ s ∈ stages, Whole s.pages.size s.bits) ∧ Whole leaf.length leaf.bits ∧
        checkReferences leaf level stages = .ok ()
  | _, [] => by
    constructor
    · rintro ⟨h⟩
      exact ⟨by simp, h, rfl⟩
    · rintro ⟨_, h, _⟩
      exact .leaf h
  | level, s :: rest => by
    have ih := linked_iff leaf (level + 1) rest
    have hp := checkPages_eq_ok level s.pages (topBlocks leaf rest)
    rw [checkReferences_cons]
    constructor
    · rintro (_ | ⟨hw, href, hrest⟩)
      obtain ⟨h1, h2, h3⟩ := ih.mp hrest
      refine ⟨List.forall_mem_cons.mpr ⟨hw, h1⟩, h2, ?_⟩
      rw [hp.mpr href]
      exact h3
    · rintro ⟨h1, h2, h3⟩
      obtain ⟨hw, h1⟩ := List.forall_mem_cons.mp h1
      split at h3
      · cases h3
      · rename_i hok
        exact .stage hw (hp.mp hok) (ih.mpr ⟨h1, h2, h3⟩)

/-! ## Values, and the whole -/

theorem checkValues_eq_ok (width : Width) (leaf : Leaf) :
    checkValues width leaf = .ok () ↔
      ∀ values, leaf.cells = .plain values → ∀ v ∈ values, width.fits v = true := by
  unfold checkValues
  cases hc : leaf.cells with
  | packed bytes => simp
  | plain values =>
    simp only [Cells.plain.injEq, forall_eq']
    cases hf : values.find? (! width.fits ·) with
    | some v =>
      have hmem := Array.mem_of_find?_eq_some hf
      have hbad : width.fits v = false := by simpa using Array.find?_some hf
      constructor
      · intro h
        cases h
      · intro h
        rw [h v hmem] at hbad
        cases hbad
    | none =>
      simp only [true_iff]
      intro v hv
      simpa using Array.find?_eq_none.mp hf v hv

/-- **The check accepts exactly the well-formed parts.** -/
theorem check_eq_ok (layout : Layout) (stages : List Stage) (leaf : Leaf) (default : UInt32) :
    check layout stages leaf default = .ok () ↔ WellFormed layout stages leaf default := by
  have hlevels := layout.stageBits_append
  constructor
  · intro h
    unfold check at h
    split at h
    · cases h
    rename_i hcount
    split at h
    · cases h
    rename_i hdefault
    split at h
    · cases h
    rename_i hleaf
    split at h
    · cases h
    rename_i hshapes
    split at h
    · cases h
    rename_i hrefs
    have hlen : stages.length = layout.stageBits.length := by
      rw [layout.length_stageBits]
      omega
    rw [← hlevels, checkShapes_eq_ok leaf layout.leafBits 0 _ _ hlen] at hshapes
    obtain ⟨hbits, hleafBits, hwhole, hleafWhole, htop⟩ := hshapes
    simp only [ne_eq, not_or, Decidable.not_not] at hleaf
    exact ⟨hbits, hleafBits, hleaf.2.1, hleaf.2.2, htop rfl,
      (linked_iff leaf 0 stages).mpr ⟨hwhole, hleafWhole, hrefs⟩, by simpa using hdefault,
      (checkValues_eq_ok layout.width leaf).mp h⟩
  · intro h
    have hlen : stages.length = layout.stageBits.length := by
      rw [← h.stage_bits, List.length_map]
    obtain ⟨hwhole, hleafWhole, hrefs⟩ := (linked_iff leaf 0 stages).mp h.linked
    have hshapes : checkShapes 0 layout.levels (shapes stages leaf) = .ok () := by
      rw [← hlevels, checkShapes_eq_ok leaf layout.leafBits 0 _ _ hlen]
      exact ⟨h.stage_bits, h.leaf_bits, hwhole, hleafWhole, fun _ => h.top⟩
    unfold check
    rw [if_neg (by rw [hlen, layout.length_stageBits]; simp), if_neg (by rw [h.default_fits]; simp),
      if_neg (by simp [h.leaf_bits, h.leaf_width, h.leaf_packed]), hshapes, hrefs]
    exact (checkValues_eq_ok layout.width leaf).mpr h.values_fit

theorem WellFormed.levels_eq {layout : Layout} {stages : List Stage} {leaf : Leaf} {default : UInt32}
    (h : WellFormed layout stages leaf default) :
    layout.levels = stages.map (·.bits) ++ [leaf.bits] := by
  rw [← layout.stageBits_append, h.stage_bits, h.leaf_bits]

theorem wellFormed (t : Table) : WellFormed t.layout t.stages t.leaf t.default :=
  (check_eq_ok ..).mp t.checked

end Table

end Multistage
