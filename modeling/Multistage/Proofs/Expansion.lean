import Multistage.RangeMap

/-!
# A range map written out

`RangeMap.dense` writes the ranges over an array of defaults.  Ranges do not overlap, so no range
undoes another, and the array holds what `RangeMap.get` finds.

* `getElem?_fill`, `getElem?_overlay` — one range.
* `getElem?_foldl_overlay` — all ranges, by induction over the list of those still to be written.
* `getElem?_dense` — the array holds the value of every key.
* `exists_ofRanges`, `requireDomain_eq_ok`, `requireWidth_eq_ok` — what the checks of a map promise.
* `get_of_contains`, `get_of_not_contains` — the value of a code point inside and outside the ranges.
-/

namespace Multistage

theorem CodeRange.contains_iff_toNat (r : CodeRange) (code : UInt32) :
    r.contains code = true ↔ r.first.toNat ≤ code.toNat ∧ code.toNat ≤ r.last.toNat := by
  rw [CodeRange.contains_iff, UInt32.le_iff_toNat_le, UInt32.le_iff_toNat_le]

namespace RangeMap

/-! ## Writing one range -/

@[simp]
theorem size_fill (value : UInt32) (count first : Nat) (cells : Array UInt32) :
    (fill value count first cells).size = cells.size := by
  induction count generalizing first cells with
  | zero => rfl
  | succ count ih => rw [fill, ih, Array.size_setIfInBounds]

theorem getElem?_fill (value : UInt32) {i : Nat} :
    ∀ (count first : Nat) (cells : Array UInt32), i < cells.size →
      (fill value count first cells)[i]? =
        if first ≤ i ∧ i < first + count then some value else cells[i]?
  | 0, first, cells, _ => by
    rw [fill, if_neg (by omega)]
  | count + 1, first, cells, hi => by
    rw [fill, getElem?_fill value count (first + 1) _ (by simpa using hi)]
    by_cases hf : first = i
    · rw [if_neg (by omega), if_pos (by omega), hf,
        Array.getElem?_setIfInBounds_self_of_lt hi]
    · rw [Array.getElem?_setIfInBounds_ne hf]
      by_cases hin : first + 1 ≤ i ∧ i < first + 1 + count
      · rw [if_pos hin, if_pos (by omega)]
      · rw [if_neg hin, if_neg (by omega)]

@[simp]
theorem size_overlay (cells : Array UInt32) (r : CodeRange) :
    (overlay cells r).size = cells.size :=
  size_fill ..

theorem getElem?_overlay {cells : Array UInt32} {code : UInt32} (r : CodeRange)
    (hi : code.toNat < cells.size) :
    (overlay cells r)[code.toNat]? =
      if r.contains code then some r.value else cells[code.toNat]? := by
  rw [overlay, getElem?_fill _ _ _ _ hi]
  by_cases hc : r.contains code = true
  · have h := (r.contains_iff_toNat code).mp hc
    rw [if_pos hc, if_pos (by omega)]
  · have h := mt (r.contains_iff_toNat code).mpr hc
    rw [if_neg hc, if_neg (by omega)]

/-! ## Writing all ranges -/

@[simp]
theorem size_foldl_overlay (ranges : List CodeRange) (cells : Array UInt32) :
    (ranges.foldl overlay cells).size = cells.size := by
  induction ranges generalizing cells with
  | nil => rfl
  | cons r rest ih => rw [List.foldl_cons, ih, size_overlay]

theorem not_contains_of_lt {r r' : CodeRange} {code : UInt32} (h : r.last < r'.first)
    (hc : r.contains code = true) : ¬ r'.contains code = true := by
  rw [CodeRange.contains_iff_toNat] at hc ⊢
  have := UInt32.lt_iff_toNat_lt.mp h
  omega

/-- **Ranges written in order**: a cell has the value of the range that contains it. -/
theorem getElem?_foldl_overlay {code : UInt32} :
    ∀ {ranges : List CodeRange} {cells : Array UInt32},
      ranges.Pairwise (fun a b => a.last < b.first) → code.toNat < cells.size →
      (ranges.foldl overlay cells)[code.toNat]? =
        match ranges.find? (·.contains code) with
        | some r => some r.value
        | none => cells[code.toNat]?
  | [], _, _, _ => rfl
  | r :: rest, cells, hsep, hi => by
    obtain ⟨hr, hrest⟩ := List.pairwise_cons.mp hsep
    rw [List.foldl_cons, getElem?_foldl_overlay hrest (by simpa using hi), getElem?_overlay r hi]
    by_cases hc : r.contains code = true
    · -- none of the ranges after this one can write the cell again
      have hnone : rest.find? (·.contains code) = none := by
        rw [List.find?_eq_none]
        exact fun r' hr' => not_contains_of_lt (hr r' hr') hc
      have hfirst : (r :: rest).find? (·.contains code) = some r := List.find?_cons_of_pos hc
      rw [hnone, if_pos hc, hfirst]
    · have hlater : (r :: rest).find? (·.contains code) = rest.find? (·.contains code) :=
        List.find?_cons_of_neg hc
      rw [if_neg hc, hlater]

theorem size_dense (m : RangeMap) {keyBits : Nat} (h : keyBits < 64) :
    (m.dense keyBits).size = 2 ^ keyBits := by
  rw [dense, size_foldl_overlay, Array.size_replicate, wordPow_of_lt h]

/-- **The array of all values** holds what the map gives. -/
theorem getElem?_dense (m : RangeMap) {keyBits : Nat} (hword : keyBits < 64) {code : UInt32}
    (h : code.toNat < 2 ^ keyBits) : (m.dense keyBits)[code.toNat]? = some (m.get code) := by
  rw [dense, wordPow_of_lt hword, getElem?_foldl_overlay m.separated (by simpa using h), get]
  cases m.ranges.find? (·.contains code) with
  | some r => rfl
  | none => simp only [Array.getElem?_replicate, if_pos h]

/-! ## What the checks promise -/

theorem misplaced?_eq_none_of_pairwise : ∀ {ranges : List CodeRange},
    ranges.Pairwise (fun a b => a.last < b.first) → misplaced? ranges = none
  | [], _ => rfl
  | [_], _ => rfl
  | a :: b :: rest, h => by
    obtain ⟨hab, hrest⟩ := List.pairwise_cons.mp h
    have hlt : a.last < b.first := hab b (by simp)
    rw [misplaced?, if_neg (UInt32.not_le.mpr hlt)]
    exact misplaced?_eq_none_of_pairwise hrest

theorem ofRanges_self (m : RangeMap) : ofRanges m.ranges m.default = .ok m := by
  unfold ofRanges
  split
  · rename_i r hr
    have hlt : r.last < r.first := by simpa using List.find?_some hr
    exact absurd (m.first_le_last r (List.mem_of_find?_eq_some hr)) (UInt32.not_le.mpr hlt)
  · split
    · rename_i hm
      rw [misplaced?_eq_none_of_pairwise m.separated] at hm
      cases hm
    · rfl

theorem ofRanges_eq_ok {ranges : List CodeRange} {default : UInt32} {m : RangeMap} :
    ofRanges ranges default = .ok m ↔ m.ranges = ranges ∧ m.default = default := by
  constructor
  · intro h
    unfold ofRanges at h
    split at h
    · cases h
    · split at h
      · cases h
      · cases h
        exact ⟨rfl, rfl⟩
  · rintro ⟨rfl, rfl⟩
    exact m.ofRanges_self

/-- **Ranges make a map exactly if** none is inverted and each starts after those before it. -/
theorem exists_ofRanges (ranges : List CodeRange) (default : UInt32) :
    (∃ m, ofRanges ranges default = .ok m) ↔
      (∀ r ∈ ranges, r.first ≤ r.last) ∧ ranges.Pairwise fun a b => a.last < b.first := by
  constructor
  · rintro ⟨m, h⟩
    obtain ⟨rfl, -⟩ := ofRanges_eq_ok.mp h
    exact ⟨m.first_le_last, m.separated⟩
  · rintro ⟨hle, hsep⟩
    exact ⟨⟨ranges, default, hle, hsep⟩, ofRanges_eq_ok.mpr ⟨rfl, rfl⟩⟩

/-! ## The value of a code point -/

theorem get_of_not_contains (m : RangeMap) {code : UInt32}
    (h : ∀ r ∈ m.ranges, ¬ r.contains code = true) : m.get code = m.default := by
  have hnone : m.ranges.find? (·.contains code) = none := List.find?_eq_none.mpr h
  rw [get, hnone]

/-- The range that contains a code point is found: those before it end before it. -/
theorem find?_contains {code : UInt32} {r : CodeRange} (h : r.contains code = true) :
    ∀ {ranges : List CodeRange}, ranges.Pairwise (fun a b => a.last < b.first) → r ∈ ranges →
      ranges.find? (·.contains code) = some r
  | first :: rest, hsep, hr => by
    obtain ⟨hfirst, hrest⟩ := List.pairwise_cons.mp hsep
    rcases List.mem_cons.mp hr with rfl | hr
    · exact List.find?_cons_of_pos h
    · have hno : ¬ first.contains code = true := fun hc => not_contains_of_lt (hfirst r hr) hc h
      rw [List.find?_cons, eq_false_of_ne_true hno]
      exact find?_contains h hrest hr

/-- **A code point in a range has its value.** -/
theorem get_of_contains (m : RangeMap) {code : UInt32} {r : CodeRange} (hr : r ∈ m.ranges)
    (h : r.contains code = true) : m.get code = r.value := by
  rw [get, find?_contains h m.separated hr]

/-! ## Domain and width -/

theorem last_le_getLast {ranges : List CodeRange}
    (hle : ∀ r ∈ ranges, r.first ≤ r.last)
    (hsep : ranges.Pairwise fun a b => a.last < b.first) {z : CodeRange}
    (hz : ranges.getLast? = some z) {r : CodeRange} (hr : r ∈ ranges) :
    r.last.toNat ≤ z.last.toNat := by
  obtain ⟨front, rfl⟩ := List.getLast?_eq_some_iff.mp hz
  rcases List.mem_append.mp hr with hf | hf
  · have hlt := (List.pairwise_append.mp hsep).2.2 r hf z (by simp)
    have hfl := hle z (by simp)
    have := UInt32.lt_iff_toNat_lt.mp hlt
    have := UInt32.le_iff_toNat_le.mp hfl
    omega
  · have hlast : r = z := List.mem_singleton.mp hf
    exact Nat.le_of_eq (by rw [hlast])

theorem requireDomain_eq_ok_word (m : RangeMap) (domainBits : Nat) :
    m.requireDomain domainBits = .ok () ↔ ∀ r ∈ m.ranges, r.last.toNat < wordPow domainBits := by
  unfold requireDomain
  cases hz : m.ranges.getLast? with
  | none =>
    have hnil : m.ranges = [] := List.getLast?_eq_none_iff.mp hz
    simp [hnil]
  | some z =>
    have hmem : z ∈ m.ranges := List.mem_of_getLast? hz
    by_cases hlt : wordPow domainBits ≤ z.last.toNat
    · simp only [if_pos hlt]
      constructor
      · intro h
        cases h
      · intro h
        have := h z hmem
        omega
    · simp only [if_neg hlt, true_iff]
      intro r hr
      have := last_le_getLast m.first_le_last m.separated hz hr
      omega

/-- **The domain is accepted exactly if all ranges lie in it**, as long as its size is a word. -/
theorem requireDomain_eq_ok (m : RangeMap) {domainBits : Nat} (h : domainBits < 64) :
    m.requireDomain domainBits = .ok () ↔ ∀ r ∈ m.ranges, r.last.toNat < 2 ^ domainBits := by
  rw [requireDomain_eq_ok_word, wordPow_of_lt h]

theorem last_lt_of_requireDomain {m : RangeMap} {domainBits : Nat}
    (h : m.requireDomain domainBits = .ok ()) {r : CodeRange} (hr : r ∈ m.ranges) :
    r.last.toNat < 2 ^ domainBits :=
  Nat.lt_of_lt_of_le ((m.requireDomain_eq_ok_word domainBits).mp h r hr) (wordPow_le domainBits)

theorem get_eq_default (m : RangeMap) {domainBits : Nat} {code : UInt32}
    (h : m.requireDomain domainBits = .ok ()) (hc : 2 ^ domainBits ≤ code.toNat) :
    m.get code = m.default := by
  apply m.get_of_not_contains
  intro r hr hin
  have hlast := last_lt_of_requireDomain h hr
  have hcon := (r.contains_iff_toNat code).mp hin
  omega

theorem requireWidth_eq_ok (m : RangeMap) (width : Width) :
    m.requireWidth width = .ok () ↔
      (∀ r ∈ m.ranges, width.fits r.value = true) ∧ width.fits m.default = true := by
  unfold requireWidth
  cases hf : (m.ranges.map (·.value) ++ [m.default]).find? (! width.fits ·) with
  | none =>
    rw [List.find?_eq_none] at hf
    simp only [true_iff]
    refine ⟨fun r hr => ?_, ?_⟩
    · simpa using hf r.value (by simp; exact .inl ⟨r, hr, rfl⟩)
    · simpa using hf m.default (by simp)
  | some v =>
    have hmem := List.mem_of_find?_eq_some hf
    have hbad : width.fits v = false := by simpa using List.find?_some hf
    constructor
    · intro h
      cases h
    · rintro ⟨hr, hd⟩
      rcases List.mem_append.mp hmem with hv | hv
      · obtain ⟨r, hr', rfl⟩ := List.mem_map.mp hv
        rw [hr r hr'] at hbad
        cases hbad
      · rw [List.mem_singleton.mp hv, hd] at hbad
        cases hbad

theorem fits_get (m : RangeMap) {width : Width} (h : m.requireWidth width = .ok ())
    (code : UInt32) : width.fits (m.get code) = true := by
  obtain ⟨hr, hd⟩ := (m.requireWidth_eq_ok width).mp h
  unfold get
  split
  · rename_i r hf
    exact hr r (List.mem_of_find?_eq_some hf)
  · exact hd

end RangeMap

end Multistage
