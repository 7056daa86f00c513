import Multistage.Proofs.Interning
import Multistage.Proofs.LoadSafety

/-!
# Whole runs of an interner

Lists of code points come in one after the other.  Those that are empty or too long are refused and
leave no trace; the others are numbered from one in the order of their first appearance.  In a row
of cells, a record is its length, its code points and zeros, so lists that differ only by zeros at
the end are told apart by the lengths.

* `Interner.run` — the outcomes of a run, and the interner after it.
* `Interner.guardedRun` — the same on the row of cells, with its accesses made explicit.
* `call_holds`, `run_holds` — the invariant and the outcomes of a call, and of a whole run.
* `Holds.cells_eq` — the row of cells after a run.
* `guardedRun_eq` — the row of cells is kept without an undefined access.
* `intern_run` — what every run comes to.
-/

namespace Multistage

namespace Interner

/-- The lists that have room in a record. -/
def fitting (capacity : Nat) (payloads : List (List UInt32)) : List (List UInt32) :=
  payloads.filter fun p => decide (1 ≤ p.length ∧ p.length ≤ capacity)

/-- Intern a list.  One that is refused leaves the interner as it is. -/
def call (b : Interner) (payload : List UInt32) : Except Error Nat × Interner :=
  match b.intern payload with
  | .error e => (.error e, b)
  | .ok (number, b') => (.ok number, b')

/-- Intern lists one after the other. -/
def run : Interner → List (List UInt32) → List (Except Error Nat) × Interner
  | b, [] => ([], b)
  | b, payload :: rest =>
    let (first, b) := b.call payload
    let (others, b) := run b rest
    (first :: others, b)

/-- The number of a list among those that came in, or that it has no room in a record. -/
def outcome (capacity : Nat) (seen : List (List UInt32)) (payload : List UInt32) :
    Except Error Nat :=
  if 1 ≤ payload.length ∧ payload.length ≤ capacity then .ok (seen.eraseDups.idxOf payload + 1)
  else .error (.config (.payloadLength payload.length capacity))

variable {b : Interner} {seen payloads : List (List UInt32)} {payload : List UInt32}
  {capacity : Nat}

theorem mem_fitting :
    payload ∈ fitting capacity payloads ↔ payload ∈ payloads ∧ CodeList.Fits capacity payload := by
  rw [fitting, List.mem_filter, decide_eq_true_iff]
  rfl

theorem fitting_cons (payload : List UInt32) (payloads : List (List UInt32)) :
    fitting capacity (payload :: payloads) =
      fitting capacity [payload] ++ fitting capacity payloads :=
  List.filter_append [payload] payloads

theorem fitting_of_fits (h : CodeList.Fits capacity payload) :
    fitting capacity [payload] = [payload] :=
  List.filter_cons_of_pos (decide_eq_true h)

theorem fitting_of_not_fits (h : ¬ CodeList.Fits capacity payload) :
    fitting capacity [payload] = [] := by
  refine List.filter_cons_of_neg fun hp => ?_
  have hfits := of_decide_eq_true hp
  exact h hfits

theorem outcome_of_fits (h : CodeList.Fits capacity payload) :
    outcome capacity seen payload = .ok (seen.eraseDups.idxOf payload + 1) :=
  if_pos h

theorem outcome_of_not_fits (h : ¬ CodeList.Fits capacity payload) :
    outcome capacity seen payload = .error (.config (.payloadLength payload.length capacity)) :=
  if_neg h

theorem outcome_append (h : payload ∈ seen ∨ ¬ CodeList.Fits capacity payload)
    (more : List (List UInt32)) :
    outcome capacity (seen ++ more) payload = outcome capacity seen payload := by
  by_cases hfits : CodeList.Fits capacity payload
  · rw [outcome_of_fits hfits, outcome_of_fits hfits,
      idxOf_eraseDups_append (h.resolve_right (not_not_intro hfits))]
  · rw [outcome_of_not_fits hfits, outcome_of_not_fits hfits]

/-! ## The invariant -/

/-- **One call.** -/
theorem call_holds (h : b.Holds seen) (hcap : b.table.capacity = capacity) (payload : List UInt32) :
    (b.call payload).2.Holds (seen ++ fitting capacity [payload]) ∧
      (b.call payload).2.table.capacity = capacity ∧
      (b.call payload).1 = outcome capacity (seen ++ fitting capacity [payload]) payload := by
  subst hcap
  by_cases hfits : CodeList.Fits b.table.capacity payload
  · obtain ⟨b', hintern, hholds, hcap'⟩ := intern_holds h hfits
    simp only [call, hintern, fitting_of_fits hfits, outcome_of_fits hfits]
    exact ⟨hholds, hcap', trivial⟩
  · simp only [call, intern_eq_error hfits, fitting_of_not_fits hfits, outcome_of_not_fits hfits,
      List.append_nil]
    exact ⟨h, trivial, trivial⟩

/-- **A whole run**, from any interner on: it holds the lists that have room, and the outcome of
each call is known without the index. -/
theorem run_holds : ∀ (payloads : List (List UInt32)) {b : Interner} {seen : List (List UInt32)},
    b.Holds seen → b.table.capacity = capacity →
      (b.run payloads).2.Holds (seen ++ fitting capacity payloads) ∧
      (b.run payloads).2.table.capacity = capacity ∧
      (b.run payloads).1 = payloads.map (outcome capacity (seen ++ fitting capacity payloads))
  | [], b, seen, h, hcap => by simpa [run, fitting] using ⟨h, hcap⟩
  | payload :: rest, b, seen, h, hcap => by
    obtain ⟨hholds, hcap', hout⟩ := call_holds h hcap payload
    obtain ⟨ih, ihcap, ihout⟩ := run_holds rest hholds hcap'
    have hmem : payload ∈ seen ++ fitting capacity [payload] ∨
        ¬ CodeList.Fits capacity payload := by
      by_cases hfits : CodeList.Fits capacity payload
      · exact .inl (List.mem_append_right _ (mem_fitting.mpr ⟨by simp, hfits⟩))
      · exact .inr hfits
    rw [← outcome_append hmem (fitting capacity rest)] at hout
    rw [fitting_cons, ← List.append_assoc]
    exact ⟨ih, ihcap, congr (congrArg List.cons hout) ihout⟩

theorem run_concat (b : Interner) (payloads : List (List UInt32)) (payload : List UInt32) :
    (b.run (payloads ++ [payload])).2 = ((b.run payloads).2.call payload).2 := by
  induction payloads generalizing b with
  | nil => rfl
  | cons first rest ih => exact ih (b.call first).2

/-! ## The row of cells -/

/-- The cells of a list: its length, its code points, and zeros. -/
def padded (capacity : Nat) (payload : List UInt32) : List UInt32 :=
  UInt32.ofNat payload.length :: (payload ++ List.replicate (capacity - payload.length) 0)

/-- **The row of cells** is a blank record and the distinct lists. -/
theorem Holds.cells_eq (h : b.Holds seen) (hcap : b.table.capacity = capacity) :
    b.table.cells =
      List.replicate (capacity + 1) 0 ++ seen.eraseDups.flatMap (padded capacity) := by
  subst hcap
  rw [← h.records, List.flatMap_map]
  rfl

/-- An interner with the cells of all records in one row. -/
structure Stored where
  capacity : Nat
  cells : List UInt32
  index : Std.HashMap (List UInt32) Nat

def stored (b : Interner) : Stored :=
  ⟨b.table.capacity, b.table.cells, b.index⟩

/-- Intern a list.  The number of a new record is the number of records in the row, which must have
room in a word, and the zeros after the list fill up a difference of lengths. -/
def guardedCall (s : Stored) (payload : List UInt32) : Option (Except Error Nat × Stored) :=
  if payload = [] ∨ s.capacity < payload.length then
    some (.error (.config (.payloadLength payload.length s.capacity)), s)
  else
    match s.index[payload]? with
    | some number => some (.ok number, s)
    | none =>
      let number := s.cells.length / (s.capacity + 1)
      if 2 ^ 32 ≤ number ∨ s.capacity < payload.length then none
      else
        some (.ok number,
          ⟨s.capacity, s.cells ++ padded s.capacity payload, s.index.insert payload number⟩)

/-- Intern lists one after the other. -/
def guardedRun : Stored → List (List UInt32) → Option (List (Except Error Nat) × Stored)
  | s, [] => some ([], s)
  | s, payload :: rest =>
    match guardedCall s payload with
    | none => none
    | some out => (guardedRun out.2 rest).map fun others => (out.1 :: others.1, others.2)

theorem not_fits_iff :
    ¬ CodeList.Fits capacity payload ↔ payload = [] ∨ capacity < payload.length := by
  unfold CodeList.Fits
  rw [← List.length_eq_zero_iff]
  omega

/-- **One call on the row of cells.** -/
theorem guardedCall_eq (hroom : b.table.recordCount < 2 ^ 32) (payload : List UInt32) :
    guardedCall b.stored payload = some ((b.call payload).1, (b.call payload).2.stored) := by
  by_cases hfits : CodeList.Fits b.table.capacity payload
  · obtain ⟨r, hr, rfl⟩ := CodeList.ofList?_of_fits hfits
    have hok : ¬ (r.codes = [] ∨ b.table.capacity < r.codes.length) :=
      fun h => not_fits_iff.mpr h hfits
    have hcount : b.table.cells.length / (b.table.capacity + 1) = b.table.recordCount := by
      rw [b.table.length_cells]
      exact Nat.mul_div_cancel _ (Nat.succ_pos _)
    have hguard : ¬ (2 ^ 32 ≤ b.table.recordCount ∨ b.table.capacity < r.codes.length) := by
      have hle := hfits.2
      omega
    simp only [guardedCall, stored, call, intern, hr, if_neg hok, hcount, if_neg hguard]
    cases hindex : b.index[r.codes]? with
    | some number => rfl
    | none =>
      have hcells : (b.table.push r).cells = b.table.cells ++ padded b.table.capacity r.codes := by
        simp only [SideTable.cells, SideTable.push, Array.toList_push, List.flatMap_append,
          List.flatMap_singleton, ← List.append_assoc]
        rfl
      simp only [hcells]
      rfl
  · refine (if_pos (not_fits_iff.mp hfits)).trans ?_
    simp only [call, intern_eq_error hfits]
    rfl

/-- **A whole run on the row of cells**, as long as the numbers have room in a word. -/
theorem guardedRun_eq :
    ∀ (payloads : List (List UInt32)) {b : Interner} {seen : List (List UInt32)},
      b.Holds seen → b.table.capacity = capacity →
      (seen ++ fitting capacity payloads).eraseDups.length < 2 ^ 32 - 1 →
      guardedRun b.stored payloads = some ((b.run payloads).1, (b.run payloads).2.stored)
  | [], _, _, _, _, _ => rfl
  | payload :: rest, b, seen, h, hcap, hroom => by
    rw [fitting_cons, ← List.append_assoc] at hroom
    have hseen : seen.eraseDups.length ≤
        (seen ++ fitting capacity [payload] ++ fitting capacity rest).eraseDups.length := by
      rw [List.append_assoc, List.eraseDups_append, List.length_append]
      omega
    have hcall : guardedCall b.stored payload = _ :=
      guardedCall_eq (by rw [h.recordCount]; omega) payload
    obtain ⟨hholds, hcap', -⟩ := call_holds h hcap payload
    rw [guardedRun, hcall]
    simp only [guardedRun_eq rest hholds hcap' hroom]
    rfl

/-! ## Numbers -/

theorem idxOf_eraseDups_inj {p q : List UInt32} (hp : p ∈ seen) (hq : q ∈ seen) :
    seen.eraseDups.idxOf p = seen.eraseDups.idxOf q ↔ p = q := by
  refine ⟨fun h => ?_, fun h => by rw [h]⟩
  have hplace := getElem?_idxOf_eraseDups hp
  rw [h, getElem?_idxOf_eraseDups hq, Option.some.injEq] at hplace
  exact hplace.symm

/-- The lists of a run before a call, the list of the call, and those after it. -/
theorem fitting_split {k : Nat} (h : payloads[k]? = some payload) :
    fitting capacity payloads = fitting capacity (payloads.take k) ++
      fitting capacity [payload] ++ fitting capacity (payloads.drop (k + 1)) := by
  obtain ⟨hlt, rfl⟩ := List.getElem?_eq_some_iff.mp h
  have hsplit := List.take_append_drop k payloads
  rw [List.drop_eq_getElem_cons hlt] at hsplit
  conv_lhs => rw [← hsplit]
  rw [fitting, List.filter_append, List.append_assoc, ← fitting_cons]
  rfl

/-- **A new list gets the next number.** -/
theorem idxOf_of_new {k : Nat} (h : payloads[k]? = some payload)
    (hfits : CodeList.Fits capacity payload) (hnew : payload ∉ payloads.take k) :
    (fitting capacity payloads).eraseDups.idxOf payload =
      (fitting capacity (payloads.take k)).eraseDups.length := by
  have hfresh : payload ∉ fitting capacity (payloads.take k) :=
    fun hmem => hnew (mem_fitting.mp hmem).1
  rw [fitting_split h, fitting_of_fits hfits, idxOf_eraseDups_append (by simp),
    eraseDups_concat_of_not_mem hfresh, idxOf_eraseDups_concat hfresh]

theorem lookup_of_le (t : SideTable) {index : UInt32} (h : t.recordCount ≤ index.toNat)
    (code : UInt32) : t.lookup index code = CodePoints.single code := by
  unfold SideTable.recordCount at h
  have hpos : index ≠ 0 := by
    rintro rfl
    simp at h
  have hnone : t.records[index.toNat - 1]? = none := Array.getElem?_eq_none (by omega)
  simp only [SideTable.lookup, if_neg hpos, hnone]

theorem getElem?_run {start : Interner} (h : empty capacity = .ok start) {k : Nat}
    (hk : payloads[k]? = some payload) :
    (start.run payloads).1[k]? = some (outcome capacity (fitting capacity payloads) payload) := by
  obtain ⟨hcap, hholds⟩ := empty_holds h
  obtain ⟨-, -, hout⟩ := run_holds payloads hholds hcap
  rw [hout, List.nil_append, List.getElem?_map, hk]
  rfl

/-- **A list that is refused leaves the interner as it is.** -/
theorem run_take_of_not_fits {start : Interner} (h : empty capacity = .ok start) {k : Nat}
    (hk : payloads[k]? = some payload) (hfits : ¬ CodeList.Fits capacity payload) :
    (start.run (payloads.take (k + 1))).2 = (start.run (payloads.take k)).2 := by
  obtain ⟨hcap, hholds⟩ := empty_holds h
  obtain ⟨-, hcap', -⟩ := run_holds (payloads.take k) hholds hcap
  rw [List.take_add_one, hk, Option.toList_some, run_concat]
  simp only [call, intern_eq_error (hcap'.symm ▸ hfits)]

theorem run_number {start : Interner} (h : empty capacity = .ok start) {k n : Nat}
    (hk : payloads[k]? = some payload) (hn : (start.run payloads).1[k]? = some (.ok n)) :
    payload ∈ fitting capacity payloads ∧
      n = (fitting capacity payloads).eraseDups.idxOf payload + 1 := by
  rw [getElem?_run h hk, Option.some.injEq] at hn
  by_cases hfits : CodeList.Fits capacity payload
  · rw [outcome_of_fits hfits, Except.ok.injEq] at hn
    exact ⟨mem_fitting.mpr ⟨List.mem_of_getElem? hk, hfits⟩, hn.symm⟩
  · rw [outcome_of_not_fits hfits] at hn
    cases hn

/-- A call that gives a number: it has room in a word, it is the next one if the list is new, and it
leads to the list. -/
theorem number_of_fits {k : Nat} (hk : payloads[k]? = some payload)
    (hfits : CodeList.Fits capacity payload) (hholds : b.Holds (fitting capacity payloads))
    (hroom : (fitting capacity payloads).eraseDups.length < 2 ^ 32 - 1) {n : Nat}
    (hn : n = (fitting capacity payloads).eraseDups.idxOf payload + 1) :
    n < 2 ^ 32 ∧
      (payload ∉ payloads.take k → n = (fitting capacity (payloads.take k)).eraseDups.length + 1) ∧
      ∀ code, (b.table.lookup (UInt32.ofNat n) code).codes = payload := by
  have hmem : payload ∈ fitting capacity payloads :=
    mem_fitting.mpr ⟨List.mem_of_getElem? hk, hfits⟩
  have hlt := List.idxOf_lt_length_of_mem (List.mem_eraseDups.mpr hmem)
  refine ⟨by omega, fun hnew => by rw [hn, idxOf_of_new hk hfits hnew], fun code => ?_⟩
  refine hholds.lookup_codes hmem ((UInt32.toNat_ofNat_of_lt' ?_).trans hn) code
  simp only [UInt32.size]
  omega

/-- **What every run comes to**, if the distinct lists are fewer than the words.  A list is refused
exactly if it is empty or too long, and then nothing changes.  Otherwise it gets a number: equal
lists have equal ones, and a new list gets the next.  After the run there is a record for each
distinct list that was not refused, besides the blank one; every number that was given leads to its
list, and zero and all other numbers to the code point itself.  The cells of the records make the
same side table again. -/
theorem intern_run {capacity : Nat} (hpos : 1 ≤ capacity) (hle : capacity ≤ maxCodes) :
    ∃ start, empty capacity = .ok start ∧ ∀ payloads : List (List UInt32),
      (fitting capacity payloads).eraseDups.length < 2 ^ 32 - 1 →
      guardedRun start.stored payloads =
        some ((start.run payloads).1, (start.run payloads).2.stored) ∧
      (start.run payloads).1.length = payloads.length ∧
      (∀ (k : Nat) (payload : List UInt32), payloads[k]? = some payload →
        ∃ o, (start.run payloads).1[k]? = some o ∧
        ((∃ e, o = .error e) ↔ payload = [] ∨ capacity < payload.length) ∧
        (∀ e, o = .error e → e = .config (.payloadLength payload.length capacity) ∧
          (start.run (payloads.take (k + 1))).2 = (start.run (payloads.take k)).2) ∧
        ∀ n, o = .ok n → n < 2 ^ 32 ∧
          (payload ∉ payloads.take k →
            n = (fitting capacity (payloads.take k)).eraseDups.length + 1) ∧
          ∀ code, ((start.run payloads).2.table.lookup (UInt32.ofNat n) code).codes = payload) ∧
      (∀ (i j : Nat) (p q : List UInt32) (m n : Nat),
        payloads[i]? = some p → payloads[j]? = some q →
        (start.run payloads).1[i]? = some (.ok m) → (start.run payloads).1[j]? = some (.ok n) →
        (m = n ↔ p = q)) ∧
      (start.run payloads).2.table.recordCount =
        (fitting capacity payloads).eraseDups.length + 1 ∧
      (start.run payloads).2.table.cells = List.replicate (capacity + 1) 0 ++
        (fitting capacity payloads).eraseDups.flatMap (padded capacity) ∧
      (∀ index code, index = 0 ∨ (start.run payloads).2.table.recordCount ≤ index.toNat →
        (start.run payloads).2.table.lookup index code = CodePoints.single code) ∧
      (∀ index code, (start.run payloads).2.table.guardedLookup index code =
        some ((start.run payloads).2.table.lookup index code)) ∧
      SideTable.ofCells capacity (start.run payloads).2.table.cells =
        .ok (start.run payloads).2.table := by
  obtain ⟨start, hstart⟩ := (exists_empty capacity).mpr ⟨hpos, hle⟩
  refine ⟨start, hstart, fun payloads hroom => ?_⟩
  obtain ⟨hcap, hempty⟩ := empty_holds hstart
  obtain ⟨hholds, hcap', hout⟩ := run_holds payloads hempty hcap
  rw [List.nil_append] at hholds hout
  have hcount := hholds.recordCount
  have hself := (start.run payloads).2.table.ofCells_cells
  rw [hcap'] at hself
  refine ⟨guardedRun_eq payloads hempty hcap (by rwa [List.nil_append]), ?_, ?_, ?_, hcount,
    hholds.cells_eq hcap', ?_, SideTable.guardedLookup_eq _, hself⟩
  · rw [hout, List.length_map]
  · intro k payload hk
    refine ⟨_, getElem?_run hstart hk, ?_⟩
    by_cases hfits : CodeList.Fits capacity payload
    · rw [outcome_of_fits hfits, ← not_fits_iff]
      refine ⟨⟨?_, fun hnot => absurd hfits hnot⟩, ?_, ?_⟩
      · rintro ⟨e, ⟨⟩⟩
      · rintro e ⟨⟩
      · rintro n ⟨⟩
        exact number_of_fits hk hfits hholds hroom rfl
    · rw [outcome_of_not_fits hfits]
      refine ⟨⟨fun _ => not_fits_iff.mp hfits, fun _ => ⟨_, rfl⟩⟩, ?_, ?_⟩
      · rintro e ⟨⟩
        exact ⟨rfl, run_take_of_not_fits hstart hk hfits⟩
      · rintro n ⟨⟩
  · intro i j p q m n hi hj hm hn
    obtain ⟨hp, rfl⟩ := run_number hstart hi hm
    obtain ⟨hq, rfl⟩ := run_number hstart hj hn
    rw [Nat.add_right_cancel_iff, idxOf_eraseDups_inj hp hq]
  · rintro index code (rfl | hpast)
    · rfl
    · exact lookup_of_le _ hpast code

/-- A list, an empty one, the first list with a zero after it, and the first list again. -/
theorem intern_run_zero : ∃ (start b : Interner) (outcomes : List (Except Error Nat)),
    empty 3 = .ok start ∧
    start.run [[0x73, 0x73], [], [0x73, 0x73, 0], [0x73, 0x73]] = (outcomes, b) ∧
    outcomes[0]? = some (.ok 1) ∧ (∃ e, outcomes[1]? = some (.error e)) ∧
    outcomes[2]? = some (.ok 2) ∧ outcomes[3]? = some (.ok 1) ∧
    b.table.recordCount = 3 ∧
    (∀ code, (b.table.lookup 1 code).codes = [0x73, 0x73]) ∧
    (∀ code, (b.table.lookup 2 code).codes = [0x73, 0x73, 0]) ∧
    (∀ code, b.table.lookup 3 code = CodePoints.single code) ∧
    SideTable.ofCells 3 b.table.cells = .ok b.table := by
  obtain ⟨start, hstart, hrun⟩ := intern_run (by decide : 1 ≤ 3) (by decide)
  obtain ⟨-, -, hcalls, hequal, hcount, -, hpast, -, hself⟩ :=
    hrun [[0x73, 0x73], [], [0x73, 0x73, 0], [0x73, 0x73]] (by decide)
  obtain ⟨o₀, h₀, herr₀, -, hok₀⟩ := hcalls 0 _ rfl
  obtain ⟨o₁, h₁, herr₁, -, -⟩ := hcalls 1 _ rfl
  obtain ⟨o₂, h₂, herr₂, -, hok₂⟩ := hcalls 2 _ rfl
  obtain ⟨o₃, h₃, herr₃, -, hok₃⟩ := hcalls 3 _ rfl
  obtain ⟨e, rfl⟩ := herr₁.mpr (by decide)
  rcases o₀ with e | n
  · exact absurd (herr₀.mp ⟨e, rfl⟩) (by decide)
  rcases o₂ with e | n₂
  · exact absurd (herr₂.mp ⟨e, rfl⟩) (by decide)
  rcases o₃ with e | n₃
  · exact absurd (herr₃.mp ⟨e, rfl⟩) (by decide)
  obtain ⟨-, hnew, hlookup⟩ := hok₀ n rfl
  obtain ⟨-, hnew₂, hlookup₂⟩ := hok₂ n₂ rfl
  obtain rfl : n = 1 := hnew (by decide)
  obtain rfl : n₂ = 2 := hnew₂ (by decide)
  obtain rfl : 1 = n₃ := (hequal 0 3 _ _ 1 n₃ rfl rfl h₀ h₃).mpr rfl
  have hthree : _ = 3 := hcount.trans (by decide)
  exact ⟨start, _, _, hstart, rfl, h₀, ⟨_, h₁⟩, h₂, h₃, hthree, hlookup, hlookup₂,
    fun code => hpast 3 code (.inr (Nat.le_of_eq hthree)), hself⟩

end Interner

end Multistage
