import Multistage.Proofs.Sharing
import Multistage.SideTable

/-!
# Equal lists share a record

An interner walks over lists of code points with a map from lists to record numbers.  Without the map:
the records are the distinct lists in the order of their first appearance, and the number of a list is
its place among them, counted from one because record zero is blank.

* `Interner.Holds` — the invariant of the walk.
* `Interner.intern_holds`, `Interner.intern_eq_error` — one step: it keeps the invariant, or it fails
  because the list has no room in a record.
* `Interner.Holds.lookup_codes` — the record with the number of a list holds that list.
-/

namespace Multistage

namespace CodeList

/-- The list is neither empty nor too long. -/
def Fits (limit : Nat) (codes : List UInt32) : Prop :=
  1 ≤ codes.length ∧ codes.length ≤ limit

variable {limit : Nat} {codes : List UInt32}

theorem ofList?_of_fits (h : Fits limit codes) :
    ∃ r, ofList? limit codes = some r ∧ r.codes = codes := by
  have hne : codes ≠ [] := List.length_pos_iff.mp h.1
  exact ⟨⟨codes, hne, h.2⟩, dif_pos ⟨hne, h.2⟩, rfl⟩

theorem ofList?_of_not_fits (h : ¬ Fits limit codes) : ofList? limit codes = none := by
  apply dif_neg
  rintro ⟨hne, hle⟩
  exact h ⟨List.length_pos_iff.mpr hne, hle⟩

end CodeList

namespace Interner

/-- What an interner contains after the lists `seen` came in. -/
structure Holds (b : Interner) (seen : List (List UInt32)) : Prop where
  places : Places b.index 1 seen
  records : b.table.records.toList.map (·.codes) = seen.eraseDups

variable {b : Interner} {seen : List (List UInt32)} {payload : List UInt32}

theorem Holds.recordCount (h : b.Holds seen) : b.table.recordCount = seen.eraseDups.length + 1 := by
  rw [← h.records, List.length_map, Array.length_toList]
  rfl

theorem exists_empty (capacity : Nat) :
    (∃ b, empty capacity = .ok b) ↔ 1 ≤ capacity ∧ capacity ≤ maxCodes := by
  unfold empty SideTable.empty
  by_cases h : 0 < capacity ∧ capacity ≤ maxCodes
  · rw [dif_pos h]
    exact ⟨fun _ => h, fun _ => ⟨_, rfl⟩⟩
  · rw [dif_neg h]
    constructor
    · rintro ⟨b, hb⟩
      cases hb
    · intro hc
      exact absurd hc h

theorem empty_holds {capacity : Nat} (h : empty capacity = .ok b) :
    b.table.capacity = capacity ∧ b.Holds [] := by
  unfold empty SideTable.empty at h
  split at h
  · cases h
  · rename_i table htable
    split at htable <;> cases htable
    cases h
    exact ⟨rfl, ⟨by simp, by simp⟩, by simp⟩

theorem Holds.push (h : b.Holds seen) (hm : payload ∉ seen) {r : CodeList b.table.capacity}
    (hr : r.codes = payload) :
    Holds ⟨b.table.push r, b.index.insert payload b.table.recordCount⟩ (seen ++ [payload]) := by
  constructor
  · rw [h.recordCount]
    exact h.places.insert hm
  · rw [eraseDups_concat_of_not_mem hm, ← h.records]
    simp [SideTable.push, hr]

/-- **One list that has room in a record**: the interner holds it, and its number is its place among
the distinct lists. -/
theorem intern_holds (h : b.Holds seen) (hfits : CodeList.Fits b.table.capacity payload) :
    ∃ b', b.intern payload = .ok ((seen ++ [payload]).eraseDups.idxOf payload + 1, b') ∧
      b'.Holds (seen ++ [payload]) ∧ b'.table.capacity = b.table.capacity := by
  obtain ⟨r, hr, hcodes⟩ := CodeList.ofList?_of_fits hfits
  by_cases hm : payload ∈ seen
  · refine ⟨b, ?_, ⟨h.places.concat_of_mem hm, ?_⟩, rfl⟩
    · simp only [intern, hr, h.places.known payload hm]
      rw [eraseDups_concat_of_mem hm]
    · rw [eraseDups_concat_of_mem hm, h.records]
  · refine ⟨⟨b.table.push r, b.index.insert payload b.table.recordCount⟩, ?_, h.push hm hcodes, rfl⟩
    simp only [intern, hr, h.places.fresh payload hm]
    rw [eraseDups_concat_of_not_mem hm, idxOf_eraseDups_concat hm, h.recordCount]

theorem intern_capacity (b : Interner) {b' : Interner} {number : Nat}
    (h : b.intern payload = .ok (number, b')) : b'.table.capacity = b.table.capacity := by
  unfold intern at h
  split at h
  · cases h
  · split at h <;> cases h <;> rfl

/-- **Any other list** is refused. -/
theorem intern_eq_error (hfits : ¬ CodeList.Fits b.table.capacity payload) :
    b.intern payload = .error (.config (.payloadLength payload.length b.table.capacity)) := by
  simp only [intern, CodeList.ofList?_of_not_fits hfits]

/-- **The record with the number of a list holds that list.** -/
theorem Holds.lookup_codes (h : b.Holds seen) (hm : payload ∈ seen) {index : UInt32}
    (hindex : index.toNat = seen.eraseDups.idxOf payload + 1) (code : UInt32) :
    (b.table.lookup index code).codes = payload := by
  have hpos : index ≠ 0 := by
    rintro rfl
    simp at hindex
  have hplace := getElem?_idxOf_eraseDups hm
  rw [← h.records, List.getElem?_map, Option.map_eq_some_iff] at hplace
  obtain ⟨r, hr, hcodes⟩ := hplace
  rw [h.records, Array.getElem?_toList] at hr
  unfold SideTable.lookup
  rw [if_neg hpos, hindex, Nat.add_sub_cancel, hr]
  exact hcodes

end Interner

end Multistage
