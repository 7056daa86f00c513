import Multistage.Proofs.RangeRecovery

/-!
# The walk over a table stays inside it

The ranges of a table are found by a walk over all cells that lead into the domain.  Each block is left
at the first cell past the domain, and the code points are words.  `Table.guardedRanges` is this walk
with every access, sum and shift made explicit; `none` stands for one that is not defined.

* `CodeRange.Within` — the range reached last ends inside the domain, so its end has a successor.
* `guardedCells_eq` — the cells of a block: leaving it early is the same as passing over the rest.
* `guardedFrom_eq` — all cells below a block.
* `ranges_exact` — the walk is defined, and its ranges are the values of the domain, cut where these
  change and nowhere else.
-/

namespace Multistage

namespace CodeRange

/-- As `CodeRange.extend`; the end of a range has no successor if it is the last word. -/
def guardedExtend (code value : UInt32) : List CodeRange → Option (List CodeRange)
  | [] => some [⟨code, code, value⟩]
  | r :: rest =>
    if r.value = value then
      if 2 ^ 32 ≤ r.last.toNat + 1 then none
      else if r.last + 1 = code then some ({ r with last := code } :: rest)
      else some (⟨code, code, value⟩ :: r :: rest)
    else some (⟨code, code, value⟩ :: r :: rest)

/-- Of ranges listed last first, the first one does not end past `last`. -/
def Within (last : Nat) (ranges : List CodeRange) : Prop :=
  ∀ r ∈ ranges.head?, r.last.toNat ≤ last

theorem guardedExtend_eq {last : Nat} {ranges : List CodeRange} (h : Within last ranges)
    (hlast : last + 1 < 2 ^ 32) (code value : UInt32) :
    guardedExtend code value ranges = some (extend code value ranges) := by
  cases ranges with
  | nil => rfl
  | cons r rest =>
    have hr : r.last.toNat ≤ last := h r (by simp)
    simp only [guardedExtend, extend]
    by_cases hvalue : r.value = value
    · rw [if_pos hvalue, if_neg (by omega)]
      by_cases hnext : r.last + 1 = code
      · rw [if_pos hnext, if_pos ⟨hvalue, hnext⟩]
      · rw [if_neg hnext, if_neg fun both => hnext both.2]
    · rw [if_neg hvalue, if_neg fun both => hvalue both.1]

theorem within_extend {last : Nat} {code : UInt32} (h : code.toNat ≤ last) (value : UInt32)
    (ranges : List CodeRange) : Within last (extend code value ranges) := by
  have hhead : ∀ r ∈ (extend code value ranges).head?, r.last = code := by
    cases ranges with
    | nil => simp [extend]
    | cons s rest =>
      simp only [extend]
      split <;> simp
  intro r hr
  rw [hhead r hr]
  exact h

end CodeRange

/-- Levels from one on that are those of some stages over leaves: the width of the first of them, and
how many there are. -/
theorem Layout.levels_from (l : Layout) {leaf : Leaf} {stages : List Stage} {level : Nat}
    (h : l.levels.drop level = stages.map (·.bits) ++ [leaf.bits]) :
    l.levels[level]? = some (Table.topBits leaf stages) ∧ level + stages.length = l.stageCount := by
  have hlen := congrArg List.length h
  simp only [List.length_drop, List.length_append, List.length_map, List.length_singleton] at hlen
  have hdepth := l.depth_eq
  unfold Layout.depth at hdepth
  refine ⟨?_, by omega⟩
  rw [← List.head?_drop, h, Table.head?_bits]

namespace Table

open CodeRange

/-! ## The cells of a block -/

/-- Visit `count` cells of a block from the given one on.  The first code point of a cell is `base` and
the number of the cell shifted.  The first cell that starts past the last code point ends the visit. -/
def guardedCells (last base : UInt32) (shift : Nat)
    (visit : (cell : Nat) → (first : UInt32) → List CodeRange → Option (List CodeRange)) :
    (count cell : Nat) → List CodeRange → Option (List CodeRange)
  | 0, _, ranges => some ranges
  | count + 1, cell, ranges =>
    let ahead := UInt32.ofNat cell <<< UInt32.ofNat shift
    if 32 ≤ shift ∨ 2 ^ 32 ≤ base.toNat + ahead.toNat then none
    else if last < base + ahead then some ranges
    else
      match visit cell (base + ahead) ranges with
      | none => none
      | some ranges => guardedCells last base shift visit count (cell + 1) ranges

theorem toNat_shiftLeft_ofNat {n shift : Nat} (hs : shift < 32) (h : n * 2 ^ shift < 2 ^ 32) :
    (UInt32.ofNat n <<< UInt32.ofNat shift).toNat = n * 2 ^ shift := by
  have hn : n < 2 ^ 32 := Nat.lt_of_le_of_lt (Nat.le_mul_of_pos_right n (Nat.two_pow_pos shift)) h
  have hword : (UInt32.ofNat n).toNat = n := UInt32.toNat_ofNat_of_lt' hn
  have hshift : (UInt32.ofNat shift).toNat = shift :=
    UInt32.toNat_ofNat_of_lt' (Nat.lt_trans hs (by decide))
  rw [UInt32.toNat_shiftLeft, hword, hshift, Nat.mod_eq_of_lt hs, Nat.shiftLeft_eq,
    Nat.mod_eq_of_lt h]

/-- What the walk does at a cell, when cells stand for `span` keys from `base` on. -/
def visitCell (last base span : Nat) (visit : (cell first : Nat) → List CodeRange → List CodeRange)
    (ranges : List CodeRange) (cell : Nat) : List CodeRange :=
  if last < base + cell * span then ranges else visit cell (base + cell * span) ranges

/-- **Past the last code point all further cells are passed over.** -/
theorem foldl_visitCell_of_lt {last base span : Nat}
    {visit : (cell first : Nat) → List CodeRange → List CodeRange} {ranges : List CodeRange} :
    ∀ (count cell : Nat), last < base + cell * span →
      (List.range' cell count).foldl (visitCell last base span visit) ranges = ranges
  | 0, _, _ => rfl
  | count + 1, cell, h => by
    have hnext : last < base + (cell + 1) * span := by
      rw [Nat.succ_mul]
      omega
    rw [List.range'_succ, List.foldl_cons, visitCell, if_pos h]
    exact foldl_visitCell_of_lt count (cell + 1) hnext

section Cells

variable {last base : UInt32} {shift : Nat}
  {visit : (cell first : Nat) → List CodeRange → List CodeRange}
  {guarded : (cell : Nat) → (first : UInt32) → List CodeRange → Option (List CodeRange)}

/-- Each of `bound` cells is visited without an undefined access, and ranges stay inside the domain. -/
def Visits (last base : UInt32) (span bound : Nat)
    (guarded : (cell : Nat) → (first : UInt32) → List CodeRange → Option (List CodeRange))
    (visit : (cell first : Nat) → List CodeRange → List CodeRange) : Prop :=
  ∀ cell < bound, ∀ first : UInt32, first.toNat = base.toNat + cell * span →
    first.toNat ≤ last.toNat → ∀ ranges, Within last.toNat ranges →
      guarded cell first ranges = some (visit cell first.toNat ranges) ∧
        Within last.toNat (visit cell first.toNat ranges)

/-- **The cells of a block.**  The induction is on the number of cells still to come. -/
theorem guardedCells_eq {bound : Nat} (hshift : shift < 32)
    (hbound : base.toNat + bound * 2 ^ shift ≤ 2 ^ 32)
    (hvisit : Visits last base (2 ^ shift) bound guarded visit) :
    ∀ (count cell : Nat) {ranges : List CodeRange}, cell + count ≤ bound →
      Within last.toNat ranges →
      guardedCells last base shift guarded count cell ranges = some ((List.range' cell count).foldl
          (visitCell last.toNat base.toNat (2 ^ shift) visit) ranges) ∧
        Within last.toNat ((List.range' cell count).foldl
          (visitCell last.toNat base.toNat (2 ^ shift) visit) ranges)
  | 0, _, ranges, _, hranges => ⟨rfl, hranges⟩
  | count + 1, cell, ranges, hle, hranges => by
    have hcell : (cell + 1) * 2 ^ shift ≤ bound * 2 ^ shift := Nat.mul_le_mul_right _ (by omega)
    rw [Nat.succ_mul] at hcell
    have hpos := Nat.two_pow_pos shift
    have hahead := toNat_shiftLeft_ofNat (n := cell) hshift (by omega)
    have hfirst : (base + UInt32.ofNat cell <<< UInt32.ofNat shift).toNat =
        base.toNat + cell * 2 ^ shift := by
      rw [UInt32.toNat_add, hahead]
      exact Nat.mod_eq_of_lt (by omega)
    simp only [guardedCells]
    rw [if_neg (by rw [hahead]; omega)]
    by_cases hpast : last.toNat < base.toNat + cell * 2 ^ shift
    · have hlt : last < base + UInt32.ofNat cell <<< UInt32.ofNat shift := by
        rw [UInt32.lt_iff_toNat_lt, hfirst]
        exact hpast
      rw [if_pos hlt, foldl_visitCell_of_lt (count + 1) cell hpast]
      exact ⟨rfl, hranges⟩
    · have hlt : ¬ last < base + UInt32.ofNat cell <<< UInt32.ofNat shift := by
        rw [UInt32.lt_iff_toNat_lt, hfirst]
        exact hpast
      obtain ⟨hstep, hwithin⟩ := hvisit cell (by omega) _ hfirst (by omega) ranges hranges
      rw [hfirst] at hstep hwithin
      have hrest := guardedCells_eq hshift hbound hvisit count (cell + 1) (by omega) hwithin
      rw [if_neg hlt, hstep, List.range'_succ, List.foldl_cons, visitCell, if_neg hpast]
      exact hrest

end Cells

/-- Visit the cells of a block of a level. -/
def guardedBlock (levels : List Nat) (last : UInt32) (level : Nat) (base : UInt32)
    (visit : (cell : Nat) → (first : UInt32) → List CodeRange → Option (List CodeRange))
    (ranges : List CodeRange) : Option (List CodeRange) :=
  match levels[level]? with
  | none => none
  | some bits =>
    if 64 ≤ bits then none
    else guardedCells last base (levels.drop (level + 1)).sum visit (2 ^ bits) 0 ranges

/-- A cell of the leaves: its value goes to the ranges. -/
def guardedLeafCell (leaf : Leaf) (offset cell : Nat) (first : UInt32) (ranges : List CodeRange) :
    Option (List CodeRange) :=
  match leaf.get? (offset + cell) with
  | none => none
  | some value => guardedExtend first value ranges

/-- A cell of a stage: the walk goes on at the block of the next level with the number in the cell. -/
def guardedStageCell (pages : Array Nat) (next? : Option Nat)
    (walk : (offset : Nat) → (base : UInt32) → List CodeRange → Option (List CodeRange))
    (offset cell : Nat) (first : UInt32) (ranges : List CodeRange) : Option (List CodeRange) :=
  match pages[offset + cell]?, next? with
  | some page, some bits => if 64 ≤ bits then none else walk (page * 2 ^ bits) first ranges
  | _, _ => none

/-- Visit all code points that go through the block of a level that starts at a cell.  The stages are
those from the level on; the leaves are known by the number of their level. -/
def guardedFrom (t : Table) (last : UInt32) : (level : Nat) → List Stage → (offset : Nat) →
    (base : UInt32) → List CodeRange → Option (List CodeRange)
  | level, stages, offset, base, ranges =>
    if level = t.layout.stageCount then
      guardedBlock t.layout.levels last level base (guardedLeafCell t.leaf offset) ranges
    else
      match stages with
      | [] => none
      | s :: rest =>
        guardedBlock t.layout.levels last level base
          (guardedStageCell s.pages t.layout.levels[level + 1]? (guardedFrom t last (level + 1) rest)
            offset) ranges

theorem walkCells_eq (last span count base : Nat)
    (visit : (cell first : Nat) → List CodeRange → List CodeRange) (ranges : List CodeRange) :
    walkCells last span count base visit ranges =
      (List.range' 0 count).foldl (visitCell last base span visit) ranges := by
  rw [← List.range_eq_range']
  rfl

/-- **A block of a level**, which has the declared width. -/
theorem guardedBlock_eq {levels : List Nat} {last base : UInt32} {level bits span : Nat}
    {guarded : (cell : Nat) → (first : UInt32) → List CodeRange → Option (List CodeRange)}
    {visit : (cell first : Nat) → List CodeRange → List CodeRange} {ranges : List CodeRange}
    (hbits : levels[level]? = some bits) (hlt : bits < 64)
    (hshift : (levels.drop (level + 1)).sum < 32) (hspan : 2 ^ (levels.drop (level + 1)).sum = span)
    (hbound : base.toNat + 2 ^ bits * span ≤ 2 ^ 32)
    (hvisit : Visits last base span (2 ^ bits) guarded visit) (hranges : Within last.toNat ranges) :
    guardedBlock levels last level base guarded ranges =
        some (walkCells last.toNat span (2 ^ bits) base.toNat visit ranges) ∧
      Within last.toNat (walkCells last.toNat span (2 ^ bits) base.toNat visit ranges) := by
  subst hspan
  rw [guardedBlock, hbits, walkCells_eq]
  simp only [if_neg (Nat.not_le.mpr hlt)]
  exact guardedCells_eq hshift hbound hvisit _ 0 (by omega) hranges

/-- **All cells below a block are visited**, and the ranges are those of the walk.  The induction is on
the stages; the block is general, and so is the code point that it starts from. -/
theorem guardedFrom_eq (t : Table) {last : UInt32} (hlast : last.toNat + 1 < 2 ^ 32) :
    ∀ {stages : List Stage} {level : Nat}, Linked t.leaf stages →
      t.layout.levels.drop level = stages.map (·.bits) ++ [t.leaf.bits] →
      ∀ {block : Nat} {base : UInt32} {ranges : List CodeRange}, block < topBlocks t.leaf stages →
        base.toNat + 2 ^ keyBits t.leaf stages ≤ 2 ^ 32 → Within last.toNat ranges →
        t.guardedFrom last level stages (block * 2 ^ topBits t.leaf stages) base ranges =
            some (walk t.leaf last.toNat (stepsOf stages (keyBits t.leaf stages)) block base.toNat
              ranges) ∧
          Within last.toNat (walk t.leaf last.toNat (stepsOf stages (keyBits t.leaf stages)) block
            base.toNat ranges) := by
  intro stages level hlinked
  induction hlinked generalizing level with
  | leaf hw =>
    intro hlevels block base ranges hblock hbase hranges
    obtain ⟨hbits, hlevel⟩ := t.layout.levels_from hlevels
    have hbelow : (t.layout.levels.drop (level + 1)).sum = 0 := by
      rw [← List.tail_drop, hlevels]
      rfl
    have hlt : t.leaf.bits < 32 := Layout.level_lt (List.mem_of_getElem? hbits)
    simp only [stepsOf, walk]
    rw [guardedFrom, if_pos (by simpa using hlevel)]
    refine guardedBlock_eq hbits (by omega) (by omega) (by rw [hbelow, Nat.pow_zero])
      (by simpa using hbase) (fun cell hcell first _ hle ranges hranges => ?_) hranges
    have hindex : block * 2 ^ t.leaf.bits + cell < t.leaf.length := by
      rw [← hw.div_mul]
      exact cell_lt hblock hcell
    obtain ⟨value, hvalue, -⟩ := t.wellFormed.leaf_get? hindex
    simp only [guardedLeafCell, topBits_nil, hvalue, UInt32.ofNat_toNat]
    exact ⟨guardedExtend_eq hranges hlast first value, within_extend hle value ranges⟩
  | @stage s rest hw href _ ih =>
    intro hlevels block base ranges hblock hbase hranges
    obtain ⟨hbits, hlevel⟩ := t.layout.levels_from hlevels
    have hnext : t.layout.levels.drop (level + 1) = rest.map (·.bits) ++ [t.leaf.bits] := by
      rw [← List.tail_drop, hlevels]
      rfl
    obtain ⟨hbits', -⟩ := t.layout.levels_from hnext
    have hbelow : (t.layout.levels.drop (level + 1)).sum = keyBits t.leaf rest := by
      rw [hnext, List.sum_append, List.sum_singleton]
      rfl
    have hshift : (t.layout.levels.drop (level + 1)).sum < 32 :=
      Nat.lt_of_le_of_lt ((List.drop_sublist _ _).sum_le_sum fun _ _ => Nat.zero_le _)
        t.layout.keyBits_lt
    have hlt : s.bits < 32 := Layout.level_lt (List.mem_of_getElem? hbits)
    have hlt' : topBits t.leaf rest < 32 := Layout.level_lt (List.mem_of_getElem? hbits')
    rw [keyBits_cons, Nat.pow_add] at hbase
    rw [stepsOf_cons, guardedFrom, if_neg (by rw [List.length_cons] at hlevel; omega)]
    simp only [walk]
    refine guardedBlock_eq hbits (by omega) hshift (by rw [hbelow]) hbase
      (fun cell hcell first hfirst _ ranges hranges => ?_) hranges
    have hindex : block * 2 ^ s.bits + cell < s.pages.size := by
      rw [← hw.div_mul]
      exact cell_lt hblock hcell
    obtain ⟨page, hpage⟩ : ∃ page, s.pages[block * 2 ^ s.bits + cell]? = some page :=
      ⟨_, Array.getElem?_eq_getElem hindex⟩
    -- the keys of the cell are among those of the block
    have hroom : (cell + 1) * 2 ^ keyBits t.leaf rest ≤ 2 ^ s.bits * 2 ^ keyBits t.leaf rest :=
      Nat.mul_le_mul_right _ hcell
    rw [Nat.succ_mul] at hroom
    simp only [guardedStageCell, topBits_cons, hpage, hbits',
      if_neg (show ¬ 64 ≤ topBits t.leaf rest by omega)]
    refine ih hnext ((href page).mp (Array.mem_of_getElem? hpage)) ?_ hranges
    rw [hfirst]
    omega

/-- The ranges of the domain, `none` if an undefined access is made on the way. -/
def guardedRanges (t : Table) : Option (List CodeRange) :=
  if 64 ≤ t.layout.domainBits then none
  else
    (t.guardedFrom (UInt32.ofNat (2 ^ t.layout.domainBits - 1)) 0 t.stages 0 0 []).map List.reverse

/-- **The walk over a table is defined**, and gives its ranges. -/
theorem guardedRanges_eq (t : Table) : t.guardedRanges = some t.ranges := by
  have hwf := t.wellFormed
  have hdomain := t.layout.domain_le
  have hpow : 2 ^ t.layout.domainBits ≤ 2 ^ maxKeyBits := Nat.pow_le_pow_right (by omega) hdomain
  unfold maxKeyBits at hdomain hpow
  have hlast : (UInt32.ofNat (2 ^ t.layout.domainBits - 1)).toNat = 2 ^ t.layout.domainBits - 1 :=
    UInt32.toNat_ofNat_of_lt' (by simp only [UInt32.size]; omega)
  have hkeys : (0 : UInt32).toNat + 2 ^ keyBits t.leaf t.stages ≤ 2 ^ 32 := by
    have hkey := t.layout.keyBits_lt
    rw [hwf.keyBits_eq, UInt32.toNat_zero, Nat.zero_add]
    exact Nat.pow_le_pow_right (by omega) (by omega)
  have hempty : Within (UInt32.ofNat (2 ^ t.layout.domainBits - 1)).toNat [] := by
    intro r hr
    cases hr
  have htop : 0 < topBlocks t.leaf t.stages := by
    rw [hwf.top]
    exact Nat.one_pos
  have hlevels : t.layout.levels.drop 0 = t.stages.map (·.bits) ++ [t.leaf.bits] := hwf.levels_eq
  have hwalk := (t.guardedFrom_eq (by omega) hwf.linked hlevels htop hkeys hempty).1
  rw [Nat.zero_mul, hwf.keyBits_eq, hlast] at hwalk
  rw [guardedRanges, if_neg (by omega), hwalk]
  rfl

/-! ## The ranges of a table -/

/-- **The ranges of a table are its values on the domain.**  The walk is defined.  There is at least one
range; the first starts at zero and the last ends where the domain does; each starts right after the
one before it and has another value.  Every code point of the domain is in exactly one of them, which
has the value that a lookup gives. -/
theorem ranges_exact (t : Table) :
    t.guardedRanges = some t.ranges ∧ t.ranges ≠ [] ∧ (∀ r ∈ t.ranges.head?, r.first = 0) ∧
    (∀ r ∈ t.ranges.getLast?, r.last.toNat = 2 ^ t.layout.domainBits - 1) ∧
    t.ranges.IsChain (fun a b => b.first.toNat = a.last.toNat + 1 ∧ a.value ≠ b.value) ∧
    (∀ r ∈ t.ranges, r.first ≤ r.last) ∧
    ∀ code : UInt32, code.toNat < 2 ^ t.layout.domainBits →
      ∃ r ∈ t.ranges, r.contains code = true ∧ r.value = t.get code ∧
        ∀ r' ∈ t.ranges, r'.contains code = true → r' = r := by
  have htiled := t.ranges_tiled
  have hsep := List.pairwise_reverse.mp htiled.separated
  have hzero : (0 : UInt32).toNat < 2 ^ t.layout.domainBits := Nat.two_pow_pos _
  refine ⟨t.guardedRanges_eq, ?_, fun r hr => ?_, fun r hr => ?_, ?_, fun r hr => ?_, fun code hc => ?_⟩
  · intro hnil
    obtain ⟨r, hr, -⟩ := htiled.exists_contains hzero
    rw [hnil] at hr
    cases hr
  · exact htiled.first_getLast r (by rwa [List.getLast?_reverse])
  · have hend := htiled.last_head r (by rwa [List.head?_reverse])
    omega
  · exact List.isChain_reverse.mp htiled.isChain
  · exact htiled.first_le_last r (List.mem_reverse.mpr hr)
  · obtain ⟨r, hr, hin⟩ := htiled.exists_contains hc
    refine ⟨r, List.mem_reverse.mp hr, hin, htiled.value_eq hr hin, fun r' hr' hin' => ?_⟩
    have hfind := RangeMap.find?_contains hin hsep (List.mem_reverse.mp hr)
    rw [RangeMap.find?_contains hin' hsep hr'] at hfind
    exact Option.some.inj hfind

/-- Eight code points under a key of four bits.  The values run on from one block to the next, and the
keys past the domain lead to the same two blocks. -/
theorem ranges_exact_padded :
    ∃ (t : Table) (r : CodeRange), t.layout.domainBits = 3 ∧ t.layout.levels = [2, 2] ∧
      t.stages = [⟨2, #[0, 1, 1, 0]⟩] ∧ t.leaf = ⟨2, .eight, .plain #[5, 5, 7, 7, 7, 7, 9, 9]⟩ ∧
      t.guardedRanges = some [⟨0, 1, 5⟩, ⟨2, 5, 7⟩, ⟨6, 7, 9⟩] ∧ r ∈ t.ranges ∧
      r.contains 4 = true ∧ r.value = t.get 4 ∧ t.get 4 = 7 ∧ t.get 8 = 7 := by
  let layout : Layout := ⟨3, [2, 2], .eight, false, by decide, by decide, by decide, by decide,
    by decide, by decide, by decide, by decide⟩
  let t : Table := ⟨layout, [⟨2, #[0, 1, 1, 0]⟩], ⟨2, .eight, .plain #[5, 5, 7, 7, 7, 7, 9, 9]⟩, 0,
    by decide +kernel⟩
  have hranges : t.ranges = [⟨0, 1, 5⟩, ⟨2, 5, 7⟩, ⟨6, 7, 9⟩] := by decide +kernel
  obtain ⟨hwalk, -, -, -, -, -, hvalue⟩ := ranges_exact t
  obtain ⟨r, hr, hin, hget, -⟩ := hvalue 4 (by decide)
  exact ⟨t, r, rfl, rfl, rfl, rfl, hranges ▸ hwalk, hr, hin, hget, by decide +kernel,
    by decide +kernel⟩

end Table

end Multistage
