import Multistage.Proofs.DeltaWords
import Multistage.Proofs.LargestValue
import Multistage.Proofs.Reencoding

/-!
# Loading is safe

Reading a catalog is defined on all data, and what was read can be asked for every code point.  The
guarded readers are the readers with every array access, subtraction, shift and division of the checks
made explicit; `none` stands for one that is not defined.

* `GuardedDecoder` — readers that may come to an undefined access.
* `Layout.guardedOfLevels`, `SideTable.guardedOfCells`, `Property.guardedOfParts` — the checks of what
  was read.
* `Catalog.guardedDecode`, `Property.guardedGet` — reading, and asking for a code point.
* `Catalog.loading_safe` — neither comes to an undefined access, and what holds of catalogs that are
  read.
-/

namespace Multistage

/-! ## Readers that may come to an undefined access -/

/-- A reader for which `none` stands for an undefined access. -/
abbrev GuardedDecoder := StateT (List UInt8) (ExceptT Error Option)

namespace GuardedDecoder

variable {α β : Type}

/-- A reader without accesses that could be undefined. -/
def lift (d : Decoder α) : GuardedDecoder α :=
  fun bytes => some (d bytes)

/-- An access. -/
def access (result : Option α) : GuardedDecoder α :=
  fun bytes => result.map fun a => .ok (a, bytes)

/-- What was read is put together, and an error of that is an error in the data. -/
def loaded (result : Option (Except Error α)) : GuardedDecoder α :=
  fun bytes => result.map fun r => Decoder.loaded r bytes

/-- What was read is put together, and an error of that stays what it is. -/
def checked (result : Option (Except Error α)) : GuardedDecoder α :=
  fun bytes => result.map fun r => Decoder.checked r bytes

theorem lift_pure (a : α) : lift (pure a) = pure a :=
  rfl

theorem lift_bind (d : Decoder α) (f : α → Decoder β) :
    lift (d >>= f) = lift d >>= fun a => lift (f a) := by
  funext bytes
  show some ((d >>= f) bytes) = ExceptT.bind (some (d bytes)) fun p => some (f p.1 p.2)
  rw [Decoder.bind_apply]
  cases d bytes <;> rfl

/-- What comes after a reader may use what the reader says about the data it was given. -/
theorem lift_bind_congr {d : Decoder α} {f g : α → GuardedDecoder β} {bytes : List UInt8}
    (h : ∀ a rest, d bytes = .ok (a, rest) → f a rest = g a rest) :
    (lift d >>= f) bytes = (lift d >>= g) bytes := by
  show ExceptT.bind (some (d bytes)) (fun p => f p.1 p.2) =
    ExceptT.bind (some (d bytes)) fun p => g p.1 p.2
  cases hd : d bytes with
  | error e => rfl
  | ok p => exact h p.1 p.2 hd

theorem access_some (a : α) : access (some a) = lift (pure a) :=
  rfl

theorem loaded_some (r : Except Error α) : loaded (some r) = lift (Decoder.loaded r) :=
  rfl

theorem checked_some (r : Except Error α) : checked (some r) = lift (Decoder.checked r) :=
  rfl

end GuardedDecoder

open GuardedDecoder

/-- A result that is there once a check has passed. -/
def guardedResult {α : Type} (check : Option (Except Error Unit)) (result : Except Error α) :
    Option (Except Error α) :=
  match check with
  | none => none
  | some (.error e) => some (.error e)
  | some (.ok ()) => some result

theorem guardedResult_eq {α : Type} {check : Except Error Unit} {result : Except Error α}
    (h : ∀ e, check = .error e → result = .error e) :
    guardedResult (some check) result = some result := by
  cases check with
  | error e => rw [h e rfl]; rfl
  | ok _ => rfl

/-! ## Layouts -/

namespace Layout

/-- The width of the leaves and the number of values of a byte.  The last level is found from the
number of levels, and a block of leaves has as many values as a word shifted by its width says. -/
def guardedLeaf (levels : List Nat) (width : Width) : Option (Nat × Nat) :=
  if levels.length = 0 then none
  else
    match levels[levels.length - 1]? with
    | none => none
    | some bits => if 64 ≤ bits ∨ width.bits = 0 then none else some (bits, 8 / width.bits)

/-- The layout with the given parts, `none` if its check makes an undefined access.  Before all else
the widths of the levels are added up in a word of 32 bits. -/
def guardedOfLevels (domainBits : Nat) (levels : List Nat) (width : Width) (packed : Bool) :
    Option (Except Error Layout) :=
  if 2 ^ 32 ≤ levels.sum then none
  else if domainBits = 0 ∨ maxKeyBits < domainBits ∨ levels = [] ∨ 0 ∈ levels ∨ levels.sum < domainBits ∨
      maxKeyBits < levels.sum ∨ packed = false ∨ width.packable = false then
    some (ofLevels domainBits levels width packed)
  else
    match guardedLeaf levels width with
    | none => none
    | some (bits, capacity) =>
      if 2 ^ bits < capacity then some (.error (.config (.leafBelowByte bits capacity)))
      else some (ofLevels domainBits levels width packed)

theorem guardedLeaf_eq {levels : List Nat} (h : levels ≠ []) (hsum : levels.sum ≤ maxKeyBits)
    (width : Width) : guardedLeaf levels width = some (levels.getLast h, 8 / width.bits) := by
  have hlast : levels[levels.length - 1]? = some (levels.getLast h) := by
    rw [← List.getLast?_eq_getElem?, List.getLast?_eq_some_getLast h]
  have hle : levels.getLast h ≤ levels.sum := List.le_sum_of_mem (List.getLast_mem h)
  have hbits : width.bits ≠ 0 := by cases width <;> decide
  unfold maxKeyBits at hsum
  unfold guardedLeaf
  rw [if_neg (mt List.length_eq_zero_iff.mp h), hlast]
  refine if_neg ?_
  omega

/-- **The check of a layout makes no undefined access** unless the sum of its widths does. -/
theorem guardedOfLevels_eq (domainBits : Nat) {levels : List Nat} (hsum : levels.sum < 2 ^ 32)
    (width : Width) (packed : Bool) :
    guardedOfLevels domainBits levels width packed =
      some (ofLevels domainBits levels width packed) := by
  unfold guardedOfLevels
  rw [if_neg (Nat.not_le.mpr hsum)]
  split
  · rfl
  rename_i hearly
  simp only [not_or, Bool.not_eq_false] at hearly
  obtain ⟨h₁, h₁', h₂, h₃, h₄, h₅, hpacked, h₆⟩ := hearly
  rw [guardedLeaf_eq h₂ (Nat.not_lt.mp h₅)]
  simp only
  split
  · rename_i hlt
    have hbelow : packed = true ∧ 2 ^ levels.getLast h₂ < Multistage.cellCapacity width packed := by
      refine ⟨hpacked, ?_⟩
      rwa [Multistage.cellCapacity, if_pos hpacked]
    unfold ofLevels
    rw [dif_neg (not_or.mpr ⟨h₁, h₁'⟩), dif_neg h₂, dif_neg h₃, dif_neg h₄, dif_neg h₅,
      dif_neg (fun h => by rw [h₆] at h; cases h.2), dif_pos hbelow, Multistage.cellCapacity,
      if_pos hpacked]
  · rfl

end Layout

/-! ## Tables -/

namespace Decoder

/-- The layout of a table and its default. -/
def guardedLayout : GuardedDecoder (Layout × UInt32) := do
  lift (header Wire.tableMark Wire.version)
  let domainBits ← lift (number 1)
  let count ← lift (number 1)
  let levels ← lift (many count (number 1))
  let bits ← lift (number 1)
  let width ← lift (loaded (Width.ofBits bits))
  let packed ← lift (flag .packingFlag)
  let default ← lift (word 4)
  let l ← GuardedDecoder.loaded (Layout.guardedOfLevels domainBits levels.toList width packed)
  return (l, default)

/-- The number of levels and each of their widths are bytes. -/
theorem sum_levels_lt {count : Nat} {levels : Array Nat} {bytes mid rest : List UInt8}
    (hcount : number 1 bytes = .ok (count, mid))
    (hlevels : many count (number 1) mid = .ok (levels, rest)) : levels.toList.sum < 2 ^ 32 := by
  obtain ⟨hlt, -⟩ := number_eq_ok hcount
  obtain ⟨rfl, hwidths, -⟩ := many_eq_ok number_eq_ok hlevels
  calc levels.toList.sum
    _ ≤ levels.toList.length * 255 :=
      List.sum_le_card_nsmul levels.toList 255 fun bits hbits =>
        Nat.le_of_lt_succ (hwidths bits (Array.mem_toList_iff.mp hbits))
    _ ≤ 255 * 255 := Nat.mul_le_mul_right _ (Nat.le_of_lt_succ hlt)
    _ < 2 ^ 32 := by decide

theorem guardedLayout_eq : guardedLayout = lift layout := by
  funext bytes
  unfold guardedLayout layout
  simp only [lift_bind, lift_pure]
  refine lift_bind_congr fun _ _ _ => ?_
  refine lift_bind_congr fun domainBits _ _ => ?_
  refine lift_bind_congr fun count _ hcount => ?_
  refine lift_bind_congr fun levels _ hlevels => ?_
  simp only [Layout.guardedOfLevels_eq _ (sum_levels_lt hcount hlevels), loaded_some]

/-- `count` stages from the given level on, with their widths out of those of all levels. -/
def guardedStages (levels : List Nat) : (count level : Nat) → GuardedDecoder (List Stage)
  | 0, _ => pure []
  | count + 1, level => do
    let cells ← lift cellCount
    let width ← lift (number 1)
    let pages ← lift (many cells (cell width))
    let bits ← access levels[level]?
    let others ← guardedStages levels count (level + 1)
    return ⟨bits, pages⟩ :: others

/-- Every stage finds its width.  The induction is on the stages still to come. -/
theorem guardedStages_eq {levels tail : List Nat} :
    ∀ (widths : List Nat) (level : Nat), levels.drop level = widths ++ tail →
      guardedStages levels widths.length level = lift (stages widths)
  | [], _, _ => rfl
  | bits :: widths, level, h => by
    have hbits : levels[level]? = some bits := by
      rw [← List.head?_drop, h, List.cons_append, List.head?_cons]
    have hnext : levels.drop (level + 1) = widths ++ tail := by
      rw [← List.tail_drop, h, List.cons_append, List.tail_cons]
    rw [List.length_cons, guardedStages, stages]
    simp only [hbits, access_some, guardedStages_eq widths (level + 1) hnext, lift_bind, lift_pure,
      stage, pure_bind, bind_assoc]

end Decoder

namespace Table

/-- The table of the given parts, if they form one. -/
def guardedOfParts (l : Layout) (stages : List Stage) (leaf : Leaf) (default : UInt32) :
    Option (Except Error Table) :=
  guardedResult (guardedCheck l stages leaf default) (ofParts l stages leaf default)

theorem guardedOfParts_eq (l : Layout) (stages : List Stage) (leaf : Leaf) (default : UInt32) :
    guardedOfParts l stages leaf default = some (ofParts l stages leaf default) := by
  unfold guardedOfParts
  rw [guardedCheck_eq]
  exact guardedResult_eq fun e h => ofParts_eq_error.mpr h

/-- The number of the level that holds the values. -/
def guardedLeafLevel (l : Layout) : Option Nat :=
  if l.levels.length = 0 then none else some (l.levels.length - 1)

theorem guardedLeafLevel_eq (l : Layout) : guardedLeafLevel l = some l.stageCount :=
  if_neg (mt List.length_eq_zero_iff.mp l.levels_ne_nil)

/-- Read a table. -/
def guardedDecode : GuardedDecoder Table := do
  let (l, default) ← Decoder.guardedLayout
  let last ← access (guardedLeafLevel l)
  let stages ← Decoder.guardedStages l.levels last 0
  let cells ← lift (Decoder.leafCells l)
  let bits ← access l.levels[last]?
  GuardedDecoder.checked (guardedOfParts l stages ⟨bits, l.width, cells⟩ default)

theorem guardedStages_stageCount (l : Layout) :
    Decoder.guardedStages l.levels l.stageCount 0 = lift (Decoder.stages l.stageBits) := by
  rw [← l.length_stageBits]
  exact Decoder.guardedStages_eq l.stageBits 0 l.stageBits_append.symm

/-- **Reading a table never makes an undefined access.** -/
theorem guardedDecode_eq : guardedDecode = lift decode := by
  unfold guardedDecode decode
  simp only [Decoder.guardedLayout_eq, guardedLeafLevel_eq, access_some, guardedStages_stageCount,
    Layout.getElem?_levels_stageCount, guardedOfParts_eq, checked_some, lift_bind, lift_pure,
    pure_bind]

end Table

/-! ## Side tables -/

namespace SideTable

/-- Whether the cells are those of the record with the given number.  The cells after the code points
are a slice. -/
def guardedRow (capacity index : Nat) (cells : List UInt32) : Option Bool :=
  match cells[0]? with
  | none => none
  | some length =>
    if index = 0 then some (cells.all (· == 0))
    else if 1 ≤ length.toNat ∧ length.toNat ≤ capacity then
      if cells.length < length.toNat + 1 then none
      else some ((cells.drop (length.toNat + 1)).all (· == 0))
    else some false

/-- Check `count` records, the first of which has the given number. -/
def guardedRows (capacity : Nat) : (count index : Nat) → List UInt32 → Option (Except Error Unit)
  | 0, _, _ => some (.ok ())
  | count + 1, index, cells =>
    match guardedRow capacity index (cells.take (capacity + 1)) with
    | none => none
    | some false => some (.error (.format (.malformedRecord index)))
    | some true => guardedRows capacity count (index + 1) (cells.drop (capacity + 1))

/-- The side table with the given cells.  The number of records is a quotient by their length. -/
def guardedOfCells (capacity : Nat) (cells : List UInt32) : Option (Except Error SideTable) :=
  match empty capacity with
  | .error e => some (.error e)
  | .ok blank =>
    if blank.stride = 0 then none
    else if cells = [] ∨ cells.length % blank.stride ≠ 0 then
      some (.error (.format (.raggedRecords cells.length blank.stride)))
    else
      guardedResult (guardedRows capacity (cells.length / blank.stride) 0 cells)
        (ofCells capacity cells)

theorem guardedRow_zero {capacity : Nat} {cells : List UInt32} (h : cells ≠ []) :
    guardedRow capacity 0 cells = some (cells.all (· == 0)) := by
  cases cells with
  | nil => exact absurd rfl h
  | cons length codes => simp [guardedRow]

theorem guardedRow_succ {capacity index : Nat} {cells : List UInt32}
    (h : cells.length = capacity + 1) :
    guardedRow capacity (index + 1) cells = some (ofRow? capacity cells).isSome := by
  cases cells with
  | nil => cases h
  | cons length codes =>
    rw [List.length_cons, Nat.succ.injEq] at h
    unfold guardedRow ofRow? CodeList.ofList?
    simp only [List.getElem?_cons_zero, Nat.succ_ne_zero, if_false, List.length_cons,
      List.drop_succ_cons]
    by_cases hlength : 1 ≤ length.toNat ∧ length.toNat ≤ capacity
    · have hlist : codes.take length.toNat ≠ [] ∧ (codes.take length.toNat).length ≤ capacity := by
        rw [← List.length_pos_iff, List.length_take]
        omega
      rw [if_pos hlength, if_neg (by omega)]
      cases hzeros : (codes.drop length.toNat).all (· == 0) with
      | true => rw [if_pos ⟨hlength.2, rfl⟩, dif_pos hlist, Option.isSome_some]
      | false => rw [if_neg (fun hform => Bool.noConfusion hform.2), Option.isSome_none]
    · rw [if_neg hlength]
      split
      · -- no code points, and these are no record
        have hzero : length.toNat = 0 := by omega
        simp [hzero]
      · rfl

/-- The check of the records after the blank one fails where reading them does.  The induction is on
their number. -/
theorem guardedRows_eq {capacity : Nat} :
    ∀ (count index : Nat) {cells : List UInt32} (acc : Array (CodeList capacity)),
      cells.length = count * (capacity + 1) →
      guardedRows capacity count (index + 1) cells =
        some ((readRows capacity count (index + 1) cells acc).map fun _ => ())
  | 0, _, _, _, _ => rfl
  | count + 1, index, cells, acc, h => by
    rw [Nat.succ_mul] at h
    have hfirst : (cells.take (capacity + 1)).length = capacity + 1 := by
      rw [List.length_take]
      omega
    have hrest : (cells.drop (capacity + 1)).length = count * (capacity + 1) := by
      rw [List.length_drop]
      omega
    rw [guardedRows, readRows, guardedRow_succ hfirst]
    cases ofRow? capacity (cells.take (capacity + 1)) with
    | none => rfl
    | some r => exact guardedRows_eq count (index + 1) (acc.push r) hrest

/-- **The check of a side table never makes an undefined access.** -/
theorem guardedOfCells_eq (capacity : Nat) (cells : List UInt32) :
    guardedOfCells capacity cells = some (ofCells capacity cells) := by
  unfold guardedOfCells
  cases hempty : empty capacity with
  | error e => simp only [ofCells, hempty]
  | ok blank =>
    obtain ⟨hpos, hle, rfl⟩ := empty_eq_ok hempty
    show (if cells = [] ∨ cells.length % (capacity + 1) ≠ 0 then
        some (.error (.format (.raggedRecords cells.length (capacity + 1))))
      else guardedResult (guardedRows capacity (cells.length / (capacity + 1)) 0 cells)
        (ofCells capacity cells)) = _
    by_cases hwhole : cells = [] ∨ cells.length % (capacity + 1) ≠ 0
    · rw [if_pos hwhole, ofCells, hempty]
      exact congrArg some (if_pos hwhole).symm
    obtain ⟨count, hcount, hlength⟩ := exists_count capacity hwhole
    have hfirst : cells.take (capacity + 1) ≠ [] := by
      rw [← List.length_pos_iff, List.length_take]
      omega
    have hrest : (cells.drop (capacity + 1)).length = count * (capacity + 1) := by
      rw [List.length_drop]
      omega
    rw [if_neg hwhole, hcount, guardedRows, guardedRow_zero hfirst]
    cases hzeros : (cells.take (capacity + 1)).all (· == 0) with
    | false =>
      rw [ofCells, hempty]
      exact congrArg some ((if_neg hwhole).trans (if_neg (Bool.eq_false_iff.mp hzeros))).symm
    | true =>
      simp only [guardedRows_eq count 0 #[] hrest]
      refine guardedResult_eq fun e h => ?_
      rw [ofCells, hempty]
      refine (if_neg hwhole).trans ((if_pos hzeros).trans ?_)
      cases hread : readRows capacity count 1 (cells.drop (capacity + 1)) #[] with
      | error e' =>
        rw [hread] at h
        cases h
        simp only [stride, hcount, Nat.add_sub_cancel, hread]
      | ok records =>
        rw [hread] at h
        cases h

/-- Read a side table, or that there is none. -/
def guardedDecode : GuardedDecoder (Option SideTable) := do
  let present ← lift (Decoder.flag .sideTableFlag)
  if present then
    let capacity ← lift (Decoder.number 1)
    let count ← lift Decoder.cellCount
    let cells ← lift (Decoder.many count (Decoder.word 4))
    let t ← GuardedDecoder.loaded (guardedOfCells capacity cells.toList)
    return some t
  else
    return none

theorem guardedDecode_eq : guardedDecode = lift decode := by
  unfold guardedDecode decode
  simp only [guardedOfCells_eq, loaded_some, lift_bind]
  refine congrArg _ (funext fun present => ?_)
  cases present with
  | false => rfl
  | true => simp only [if_true, lift_bind, lift_pure]

/-- Number of records, a quotient by their length. -/
def guardedRecordCount (t : SideTable) : Option Nat :=
  if t.stride = 0 then none else some (t.cells.length / t.stride)

theorem guardedRecordCount_eq (t : SideTable) : t.guardedRecordCount = some t.recordCount := by
  unfold guardedRecordCount
  have hstride : t.stride ≠ 0 := Nat.succ_ne_zero _
  rw [if_neg hstride, t.length_cells, cellCount, Nat.mul_div_cancel _ (Nat.pos_of_ne_zero hstride)]

end SideTable

namespace Table

/-- The largest of `count` values of the leaves from the given one on, and of those before. -/
def guardedLargestFrom (leaf : Leaf) : (count index : Nat) → UInt32 → Option UInt32
  | 0, _, largest => some largest
  | count + 1, index, largest =>
    match leaf.get? index with
    | none => none
    | some value => guardedLargestFrom leaf count (index + 1) (max largest value)

/-- The largest value. -/
def guardedLargest (t : Table) : Option UInt32 :=
  match t.leaf.guardedLength with
  | none => none
  | some count => guardedLargestFrom t.leaf count 0 t.default

theorem guardedLargestFrom_eq {leaf : Leaf} :
    ∀ (values : List UInt32) (index : Nat) (largest : UInt32), leaf.values.drop index = values →
      guardedLargestFrom leaf values.length index largest = some (values.foldl max largest)
  | [], _, _, _ => rfl
  | value :: values, index, largest, h => by
    have hvalue : leaf.get? index = some value := by
      rw [← leaf.getElem?_values, ← List.head?_drop, h, List.head?_cons]
    have hnext : leaf.values.drop (index + 1) = values := by
      rw [← List.tail_drop, h, List.tail_cons]
    rw [List.length_cons, guardedLargestFrom, hvalue]
    exact guardedLargestFrom_eq values (index + 1) _ hnext

theorem guardedLargest_eq (t : Table) : t.guardedLargest = some t.largestValue := by
  unfold guardedLargest
  rw [Leaf.guardedLength_eq, ← Leaf.length_values]
  exact guardedLargestFrom_eq t.leaf.values 0 t.default rfl

end Table

/-! ## Properties and catalogs -/

/-- Every value that a table can give is the number of a record. -/
def SideTable.guardedCovers (t : SideTable) (table : Table) : Option (Except Error Unit) :=
  match table.guardedLargest, t.guardedRecordCount with
  | some largest, some count =>
    if count ≤ largest.toNat then some (.error (.config (.danglingRecord largest.toNat count)))
    else some (.ok ())
  | _, _ => none

theorem SideTable.guardedCovers_eq (t : SideTable) (table : Table) :
    t.guardedCovers table = some (t.requireCovers table) := by
  unfold guardedCovers requireCovers
  rw [table.guardedLargest_eq, t.guardedRecordCount_eq]
  simp only
  split <;> rfl

namespace Property

/-- The property with the given parts. -/
def guardedOfParts (name : String) (kind : Kind) (table : Table) (side : Option SideTable)
    (report : Report) : Option (Except Error Property) :=
  match side with
  | none => some (ofParts name kind table none report)
  | some t =>
    if name = "" ∨ kind ≠ .codepointList then some (ofParts name kind table (some t) report)
    else guardedResult (t.guardedCovers table) (ofParts name kind table (some t) report)

theorem guardedOfParts_eq (name : String) (kind : Kind) (table : Table) (side : Option SideTable)
    (report : Report) : guardedOfParts name kind table side report =
      some (ofParts name kind table side report) := by
  cases side with
  | none => rfl
  | some t =>
    unfold guardedOfParts
    simp only
    split
    · rfl
    rename_i hparts
    rw [not_or, not_not] at hparts
    rw [t.guardedCovers_eq]
    refine guardedResult_eq fun e h => ?_
    unfold ofParts
    rw [dif_neg hparts.1]
    simp only [dif_pos hparts.2]
    split
    · rename_i e' he'
      rw [h] at he'
      cases he'
      rfl
    · rename_i hok
      rw [h] at hok
      cases hok

/-- Read a property. -/
def guardedDecode : GuardedDecoder Property := do
  let name ← lift decodeName
  let kind ← lift decodeKind
  let table ← Table.guardedDecode
  let side ← SideTable.guardedDecode
  GuardedDecoder.loaded (guardedOfParts name kind table side {})

theorem guardedDecode_eq : guardedDecode = lift decode := by
  unfold guardedDecode decode
  simp only [Table.guardedDecode_eq, SideTable.guardedDecode_eq, guardedOfParts_eq, loaded_some,
    lift_bind]

end Property

namespace Catalog

/-- Read `count` properties into a catalog. -/
def guardedDecodeAll : (count : Nat) → Catalog → GuardedDecoder Catalog
  | 0, c => pure c
  | count + 1, c => do
    let p ← Property.guardedDecode
    let c ← lift (Decoder.loaded (c.insert p))
    guardedDecodeAll count c

/-- Read a catalog. -/
def guardedDecode : GuardedDecoder Catalog := do
  lift (Decoder.header Wire.catalogMark Wire.version)
  let count ← lift (Decoder.number 4)
  guardedDecodeAll count empty

theorem guardedDecodeAll_eq : ∀ (count : Nat) (c : Catalog),
    guardedDecodeAll count c = lift (decodeAll count c)
  | 0, _ => rfl
  | count + 1, c => by
    unfold guardedDecodeAll decodeAll
    simp only [Property.guardedDecode_eq, guardedDecodeAll_eq count, lift_bind]

/-- **Reading a catalog never makes an undefined access.** -/
theorem guardedDecode_eq : guardedDecode = lift decode := by
  unfold guardedDecode decode
  simp only [guardedDecodeAll_eq, lift_bind]

end Catalog

/-! ## Asking for a code point -/

/-- The distance in the low bits of a word, which are shifted up and, with their sign, down again. -/
def Delta.guardedDecode (value : UInt32) (width : Width) : Option Int :=
  if 32 < width.bits ∨ 32 ≤ 32 - width.bits then none
  else
    some ((value <<< UInt32.ofNat (32 - width.bits)).toBitVec.sshiftRight (32 - width.bits)).toInt

theorem Delta.guardedDecode_eq (value : UInt32) (width : Width) :
    guardedDecode value width = some (decode value width) := by
  have hguard : ¬ (32 < width.bits ∨ 32 ≤ 32 - width.bits) := by cases width <;> decide
  rw [guardedDecode, if_neg hguard, decode_eq_shift]

namespace SideTable

/-- The code points of a record, out of the cells of all records.  The cells of a record and its code
points are asked for, and may not be there; its length is an access. -/
def guardedLookup (t : SideTable) (index code : UInt32) : Option CodePoints :=
  if t.cells.length < index.toNat * t.stride + t.stride ∨ index = 0 then
    some (CodePoints.single code)
  else
    match (t.recordCells index.toNat)[0]? with
    | none => none
    | some length =>
      if (t.recordCells index.toNat).length < length.toNat + 1 then some (CodePoints.single code)
      else
        match CodeList.ofList? maxCodes (((t.recordCells index.toNat).drop 1).take length.toNat) with
        | none => some (CodePoints.single code)
        | some codes => some codes

theorem guardedLookup_eq (t : SideTable) (index code : UInt32) :
    t.guardedLookup index code = some (t.lookup index code) := by
  unfold guardedLookup lookup
  by_cases hzero : index = 0
  · rw [if_pos (.inr hzero), if_pos hzero]
  have hpos : index.toNat ≠ 0 := fun h => hzero (UInt32.toNat_inj.mp h)
  have hlength : t.cells.length = (t.records.size + 1) * t.stride := t.length_cells
  rw [if_neg hzero, hlength, ← Nat.succ_mul]
  cases hrecord : t.records[index.toNat - 1]? with
  | none =>
    have hsize := Array.getElem?_eq_none_iff.mp hrecord
    have hpast : (t.records.size + 1) * t.stride < (index.toNat + 1) * t.stride :=
      Nat.mul_lt_mul_of_pos_right (by omega) (Nat.succ_pos _)
    rw [if_pos (.inl hpast)]
  | some r =>
    have hsize := (Array.getElem?_eq_some_iff.mp hrecord).1
    have hthere : (index.toNat + 1) * t.stride ≤ (t.records.size + 1) * t.stride :=
      Nat.mul_le_mul_right _ (by omega)
    have hrow : t.recordCells index.toNat = row r := by
      rw [← Nat.succ_pred_eq_of_ne_zero hpos]
      exact recordCells_succ hrecord
    have hcodes : CodeList.ofList? maxCodes r.codes = some (r.widen t.capacity_le) :=
      CodeList.ofList?_codes (r.widen t.capacity_le)
    have htake : (r.codes ++ List.replicate (t.capacity - r.length) 0).take r.length = r.codes :=
      List.take_left
    have hwhole : ¬ (row r).length < r.length + 1 := by
      have hle : r.length ≤ t.capacity := r.length_le
      rw [length_row]
      omega
    rw [if_neg (not_or.mpr ⟨Nat.not_lt.mpr hthere, hzero⟩), hrow]
    rw [row] at hwhole ⊢
    simp only [List.getElem?_cons_zero, toNat_length t.capacity_le, if_neg hwhole,
      List.drop_succ_cons, List.drop_zero, htake, hcodes]

end SideTable

namespace Property

/-- What the property says about a code point, `none` if an undefined access is made on the way. -/
def guardedGet (p : Property) (code : UInt32) : Option Value :=
  match p.table.guardedGet code with
  | none => none
  | some stored =>
    match p.kind with
    | .boolean => some (.boolean (stored != 0))
    | .enumeration => some (.enumeration stored)
    | .signedDelta => (Delta.guardedDecode stored p.table.layout.width).map .signedDelta
    | .codepointList =>
      match p.sideTable with
      | some side => (side.guardedLookup stored code).map .codepoints
      | none => some (.codepoints (CodePoints.single code))

/-- **Asking a property for a code point never makes an undefined access.** -/
theorem guardedGet_eq (p : Property) (code : UInt32) : p.guardedGet code = some (p.get code) := by
  unfold guardedGet get stored
  rw [p.table.guardedGet_eq]
  cases p.kind with
  | boolean => rfl
  | enumeration => rfl
  | signedDelta => simp only [Delta.guardedDecode_eq, Option.map_some]
  | codepointList =>
    cases p.sideTable with
    | none => rfl
    | some side => simp only [SideTable.guardedLookup_eq, Option.map_some]

end Property

/-! ## Catalogs that are read -/

namespace Catalog

theorem sideTable_within {c : Catalog} {widths : List (List Nat)} (h : c.Holds widths) {p : Property}
    (hp : p ∈ c.properties) : SideTable.encode p.sideTable <:+: c.encodeIn widths := by
  obtain ⟨ws, hws⟩ : ∃ ws, p.encodeIn ws ∈ _ :=
    mem_zipWith_of_forall₂ h (Array.mem_toList_iff.mpr hp)
  have hproperty : SideTable.encode p.sideTable <:+: p.encodeIn ws :=
    (List.suffix_append _ _).isInfix
  have hrow : p.encodeIn ws <:+: (List.zipWith Property.encodeIn c.properties.toList widths).flatten :=
    List.infix_of_mem_flatten hws
  exact hproperty.trans (hrow.trans (List.suffix_append _ _).isInfix)

/-- **Loading is safe.**  Reading a catalog makes no undefined access, whatever the data are.  If there
is one, then names are distinct and not empty, and the index gives each property by its name; a side
table is there exactly for lists of code points; its cells, which are in the data, are a record of
zeros and further ones of a length, as many code points, and zeros; every stored number is that of a
record; and asking for any code point makes no undefined access either. -/
theorem loading_safe (bytes : List UInt8) :
    guardedDecode bytes = some (decode bytes) ∧
    ∀ c rest, decode bytes = .ok (c, rest) →
      c.names.Nodup ∧ Consistent c ∧
      ∀ p ∈ c.properties,
        p.name ≠ "" ∧ (p.sideTable.isSome = true ↔ p.kind = .codepointList) ∧
        (∀ t ∈ p.sideTable,
          SideTable.encode (some t) <:+: bytes ∧
          t.cells.length = t.recordCount * (t.capacity + 1) ∧
          t.recordCells 0 = List.replicate (t.capacity + 1) 0 ∧
          (∀ k, 0 < k → k < t.recordCount → SideTable.IsRecord t.capacity (t.recordCells k)) ∧
          ∀ code, (p.stored code).toNat < t.recordCount) ∧
        ∀ code, p.guardedGet code = some (p.get code) := by
  refine ⟨congrFun guardedDecode_eq bytes, fun c rest h => ?_⟩
  obtain ⟨hc, -, -, widths, hholds, rfl⟩ := decode_eq_ok h
  refine ⟨hc.nodup_names, hc, fun p hp => ⟨p.name_ne, ?_, fun t ht => ?_, p.guardedGet_eq⟩⟩
  · rw [p.isSome_sideTable, beq_iff_eq]
  · have hwithin := sideTable_within hholds hp
    rw [show p.sideTable = some t from ht] at hwithin
    refine ⟨hwithin.trans (List.prefix_append _ _).isInfix, t.length_cells, t.recordCells_zero,
      fun k => t.isRecord_recordCells, ?_⟩
    exact SideTable.lt_recordCount (p.indices t ht)

/-- A list of code points over two bits of key, two of which stand for `ss`. -/
theorem loading_safe_folding :
    ∃ c p t, decode [0x43, 0x50, 0x43, 0x54, 1, 0, 1, 0, 0, 0, 1, 0, 0x46, 3, 0x43, 0x50, 0x54, 0x52,
        1, 0, 2, 2, 1, 1, 8, 0, 0, 0, 0, 0, 2, 0, 0, 0, 1, 0, 1, 4, 0, 0, 0, 0, 1, 1, 0, 1, 2, 6, 0, 0,
        0, 0, 0, 0, 0, 0, 0, 0, 0, 0, 0, 0, 0, 2, 0, 0, 0, 0x73, 0, 0, 0, 0x73, 0, 0, 0] =
          .ok (c, []) ∧
      c.properties = #[p] ∧ c.index["F"]? = some 0 ∧ p.sideTable = some t ∧
      SideTable.IsRecord 2 (t.recordCells 1) ∧ (p.stored 1).toNat < t.recordCount ∧
      p.guardedGet 1 = some (p.get 1) := by
  have hcheck : Property.readsAs [1, 0, 0x46, 3, 0x43, 0x50, 0x54, 0x52, 1, 0, 2, 2, 1, 1, 8, 0, 0, 0,
      0, 0, 2, 0, 0, 0, 1, 0, 1, 4, 0, 0, 0, 0, 1, 1, 0, 1, 2, 6, 0, 0, 0, 0, 0, 0, 0, 0, 0, 0, 0, 0,
      0, 0, 0, 2, 0, 0, 0, 0x73, 0, 0, 0, 0x73, 0, 0, 0] (fun p => p.name == "F" &&
        (p.sideTable.map fun t => (t.capacity, t.recordCount)) == some (2, 2)) = true := by
    decide +kernel
  obtain ⟨c, p, hread, hprops, hp⟩ := ofBytes_single hcheck
  rw [Bool.and_eq_true, beq_iff_eq, beq_iff_eq, Option.map_eq_some_iff] at hp
  obtain ⟨hname, t, ht, hsize⟩ := hp
  have hdecode := ofBytes_eq_ok.mp hread
  obtain ⟨-, hc, hall⟩ := (loading_safe _).2 c [] hdecode
  obtain ⟨-, -, hside, hget⟩ := hall p (by simp [hprops])
  obtain ⟨-, -, -, hrecords, hstored⟩ := hside t ht
  obtain ⟨hcapacity, hcount⟩ := Prod.mk.inj hsize
  have hrecord := hrecords 1 (by decide) (by rw [hcount]; decide)
  rw [hcapacity] at hrecord
  exact ⟨c, p, t, hdecode, hprops, (hc _ _).mpr ⟨p, by simp [hprops], hname⟩, ht, hrecord, hstored 1,
    hget 1⟩

end Catalog

end Multistage
