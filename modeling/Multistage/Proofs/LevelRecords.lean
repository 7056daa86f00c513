import Multistage.Report

/-!
# Filling in a report

A build does not record a level at once.  The number of blocks is recorded as soon as the level is
shared, the lowest level first, and the sizes when all levels are there, the top first.

* `Report.noted`, `Report.sized` — what is recorded after part of the first pass and of the second.
* `modify_blank`, `modify_noted`, `modify_sized` — one step of each pass.
* `guardedModify_eq` — the record that is asked for is always there.
-/

namespace Multistage

/-- A record of which the size is still missing. -/
def LevelReport.unsized (s : LevelReport) : LevelReport :=
  { s with cellBytes := 0, bytes := 0 }

namespace Report

/-- Change the record of a level, which has to be there once blank records are added up to it. -/
def guardedModify (level : Nat) (change : LevelReport → LevelReport) (s : Report) : Option Report :=
  let count := s.levels.length
  let blank := (List.range' count (level + 1 - count)).map fun k => { level := k : LevelReport }
  match (s.levels ++ blank)[level]? with
  | none => none
  | some record => some ⟨(s.levels ++ blank).set level (change record)⟩

theorem guardedModify_eq (level : Nat) (change : LevelReport → LevelReport) (s : Report) :
    s.guardedModify level change = some (s.modify level change) := by
  unfold guardedModify modify
  obtain ⟨all, hall⟩ : ∃ all, all = s.levels ++ (List.range' s.levels.length
    (level + 1 - s.levels.length)).map fun k => { level := k : LevelReport } := ⟨_, rfl⟩
  have hlt : level < all.length := by
    simp only [hall, List.length_append, List.length_map, List.length_range']
    omega
  have hset : all.set level (change all[level]) = all.modify level change := by
    apply List.ext_getElem?
    intro k
    rw [List.getElem?_set, List.getElem?_modify]
    by_cases hk : level = k
    · subst hk
      simp [hlt]
    · simp [hk]
  simp only [← hall, List.getElem?_eq_getElem hlt, hset]

/-- The report of `count` levels with the given records. -/
def ofRecords (count : Nat) (record : Nat → LevelReport) : Report :=
  ⟨(List.range count).map record⟩

theorem modify_ofRecords {count level : Nat} (h : level < count)
    (change : LevelReport → LevelReport) (record : Nat → LevelReport) :
    (ofRecords count record).modify level change =
      ofRecords count fun k => if k = level then change (record k) else record k := by
  have hblank : level + 1 - count = 0 := by omega
  simp only [modify, ofRecords, List.length_map, List.length_range, hblank, List.range'_zero,
    List.map_nil, List.append_nil]
  congr 1
  apply List.ext_getElem?
  intro k
  rw [List.getElem?_modify, List.getElem?_map, List.getElem?_map]
  by_cases hk : k < count
  · rw [List.getElem?_range hk]
    by_cases hkl : k = level
    · simp [hkl]
    · simp [hkl, Ne.symm hkl]
  · simp [Nat.not_lt.mp hk]

theorem modify_empty (level : Nat) (change : LevelReport → LevelReport) :
    ({} : Report).modify level change =
      ofRecords (level + 1) fun k =>
        if k = level then change { level := k } else { level := k } := by
  have hblank : ({} : Report).modify level change =
      (ofRecords (level + 1) fun k => { level := k }).modify level change := by
    simp [modify, ofRecords, List.range_eq_range']
  rw [hblank, modify_ofRecords (Nat.lt_succ_self level)]

theorem ofRecords_congr {count : Nat} {f g : Nat → LevelReport} (h : ∀ k < count, f k = g k) :
    ofRecords count f = ofRecords count g := by
  unfold ofRecords
  congr 1
  exact List.map_congr_left fun k hk => h k (List.mem_range.mp hk)

section Filling

variable {record : Nat → LevelReport} {count level : Nat}

/-- The report in which the blocks of the given level and of those below it are recorded. -/
def noted (record : Nat → LevelReport) (count level : Nat) : Report :=
  ofRecords count fun k => if level ≤ k then (record k).unsized else { level := k }

/-- The report with the blocks of all levels and the sizes of those above the given one. -/
def sized (record : Nat → LevelReport) (count level : Nat) : Report :=
  ofRecords count fun k => if k < level then record k else (record k).unsized

theorem noted_zero (record : Nat → LevelReport) (count : Nat) :
    noted record count 0 = sized record count 0 :=
  ofRecords_congr fun _ _ => by simp

theorem sized_all : sized record count count = ofRecords count record :=
  ofRecords_congr fun _ hk => if_pos hk

theorem modify_blank (hlevel : (record level).level = level) :
    ({} : Report).modify level
        (.withBlocks (record level).bits (record level).logical (record level).physical) =
      noted record (level + 1) level := by
  rw [modify_empty]
  refine ofRecords_congr fun k hk => ?_
  by_cases h : k = level
  · subst h
    rw [if_pos rfl, if_pos (Nat.le_refl k)]
    simp only [LevelReport.withBlocks, LevelReport.unsized, hlevel]
  · rw [if_neg h, if_neg (by omega)]

theorem modify_noted (h : level < count) (hlevel : (record level).level = level) :
    (noted record count (level + 1)).modify level
        (.withBlocks (record level).bits (record level).logical (record level).physical) =
      noted record count level := by
  rw [noted, modify_ofRecords h]
  refine ofRecords_congr fun k _ => ?_
  rcases Nat.lt_trichotomy k level with hk | rfl | hk
  · simp [Nat.ne_of_lt hk, Nat.not_le.mpr hk, Nat.not_le.mpr (Nat.lt_succ_of_lt hk)]
  · rw [if_pos rfl, if_neg (Nat.not_succ_le_self k), if_pos (Nat.le_refl k)]
    simp only [LevelReport.withBlocks, LevelReport.unsized, hlevel]
  · simp [Nat.ne_of_gt hk, Nat.le_of_lt hk, Nat.succ_le_of_lt hk]

theorem modify_sized (record : Nat → LevelReport) (h : level < count) :
    (sized record count level).modify level
        (.withSize (record level).cellBytes (record level).bytes) =
      sized record count (level + 1) := by
  rw [sized, modify_ofRecords h]
  refine ofRecords_congr fun k _ => ?_
  rcases Nat.lt_trichotomy k level with hk | rfl | hk
  · simp [Nat.ne_of_lt hk, hk, Nat.lt_succ_of_lt hk]
  · simp [LevelReport.withSize, LevelReport.unsized]
  · simp [Nat.ne_of_gt hk, Nat.not_lt.mpr (Nat.le_of_lt hk), Nat.not_lt.mpr (Nat.succ_le_of_lt hk)]

end Filling

end Report

end Multistage
