import Multistage.Proofs.CatalogRuns
import Multistage.Proofs.DeltaProperties
import Multistage.Proofs.FailureIsolation
import Multistage.Proofs.ListProperties

/-!
# What data say about a code point, and what the property of the data says

Ranges and lists can be read without a table: a code point has the value of the range that contains it,
or the list that is given for it.  The property that is made of the data gives the same, once its table
can be made; with a fixed split this is known from the data.

* `inRanges`, `valueIn`, `listFor` — what ranges, ranges with values, and lists say.
* `RangeMap.get_eq_valueIn` — the range map of the ranges says the same.
* `Spec.exists_build_fixed` — when a property without a side table can be made.
* `Spec.build_flags`, `Spec.build_enumeration`, `Spec.build_valueIn`, `Spec.Listed.build_listFor` — what
  properties say.
* `Catalog.build_complete` — specifications that can all be made.
-/

namespace Multistage

/-! ## Data -/

/-- The code point lies in one of the ranges. -/
def inRanges (ranges : List (UInt32 × UInt32)) (code : UInt32) : Bool :=
  ranges.any fun r => decide (r.1 ≤ code ∧ code ≤ r.2)

/-- The value of the range that contains the code point, or else the default. -/
def valueIn {β : Type} (ranges : List (UInt32 × UInt32 × β)) (default : β) (code : UInt32) : β :=
  match ranges.find? fun r => decide (r.1 ≤ code ∧ code ≤ r.2.1) with
  | some r => r.2.2
  | none => default

/-- The list that is given for the code point, or else the code point itself. -/
def listFor (lists : List (UInt32 × List UInt32)) (code : UInt32) : List UInt32 :=
  (lists.lookup code).getD [code]

section Data

variable {β : Type} {ranges : List (UInt32 × UInt32 × β)} {default : β}
  {lists : List (UInt32 × List UInt32)} {code : UInt32}

theorem valueIn_cases (ranges : List (UInt32 × UInt32 × β)) (default : β) (code : UInt32) :
    (∃ r ∈ ranges, r.1 ≤ code ∧ code ≤ r.2.1 ∧ valueIn ranges default code = r.2.2) ∨
      (∀ r ∈ ranges, ¬ (r.1 ≤ code ∧ code ≤ r.2.1)) ∧ valueIn ranges default code = default := by
  unfold valueIn
  cases hfind : ranges.find? fun r => decide (r.1 ≤ code ∧ code ≤ r.2.1) with
  | some r =>
    obtain ⟨hfirst, hlast⟩ : r.1 ≤ code ∧ code ≤ r.2.1 := by simpa using List.find?_some hfind
    exact .inl ⟨r, List.mem_of_find?_eq_some hfind, hfirst, hlast, rfl⟩
  | none =>
    refine .inr ⟨fun r hr hin => ?_, rfl⟩
    simpa [hin] using List.find?_eq_none.mp hfind r hr

theorem valueIn_of_not_mem (h : ∀ r ∈ ranges, ¬ (r.1 ≤ code ∧ code ≤ r.2.1)) :
    valueIn ranges default code = default := by
  rcases valueIn_cases ranges default code with ⟨r, hr, hfirst, hlast, -⟩ | ⟨-, hvalue⟩
  · exact absurd ⟨hfirst, hlast⟩ (h r hr)
  · exact hvalue

theorem listFor_cases (lists : List (UInt32 × List UInt32)) (code : UInt32) :
    (∃ payload, lists.lookup code = some payload ∧ (code, payload) ∈ lists ∧
      listFor lists code = payload) ∨
    lists.lookup code = none ∧ (∀ entry ∈ lists, entry.1 ≠ code) ∧ listFor lists code = [code] := by
  unfold listFor
  cases hlookup : lists.lookup code with
  | some payload =>
    obtain ⟨before, after, rfl, -⟩ := List.lookup_eq_some_iff.mp hlookup
    exact .inl ⟨payload, rfl, by simp, rfl⟩
  | none =>
    refine .inr ⟨rfl, fun entry hentry heq => ?_, rfl⟩
    simpa [heq] using List.lookup_eq_none_iff.mp hlookup entry hentry

end Data

namespace RangeMap

variable {m : RangeMap}

/-- **The map of ranges with values** gives the word of the value that the ranges say. -/
theorem get_eq_valueIn {β : Type} {ranges : List (UInt32 × UInt32 × β)} {default : β}
    {word : β → UInt32} (hranges : m.ranges = ranges.map fun r => ⟨r.1, r.2.1, word r.2.2⟩)
    (hdefault : m.default = word default) (code : UInt32) :
    m.get code = word (valueIn ranges default code) := by
  have hfind : m.ranges.find? (·.contains code) =
      (ranges.find? fun r => decide (r.1 ≤ code ∧ code ≤ r.2.1)).map
        fun r => ⟨r.1, r.2.1, word r.2.2⟩ := by
    rw [hranges, List.find?_map]
    rfl
  unfold get valueIn
  rw [hfind]
  cases ranges.find? fun r => decide (r.1 ≤ code ∧ code ≤ r.2.1) with
  | some r => rfl
  | none => exact hdefault

theorem get_bne_zero {ranges : List (UInt32 × UInt32)}
    (hranges : m.ranges = ranges.map fun r => ⟨r.1, r.2, 1⟩) (hdefault : m.default = 0)
    (code : UInt32) : (m.get code != 0) = inRanges ranges code := by
  cases hin : inRanges ranges code with
  | true =>
    obtain ⟨r, hr, hcode⟩ := List.any_eq_true.mp hin
    have hmem : (⟨r.1, r.2, 1⟩ : CodeRange) ∈ m.ranges := by
      rw [hranges]
      exact List.mem_map.mpr ⟨r, hr, rfl⟩
    rw [m.get_of_contains hmem hcode]
    rfl
  | false =>
    have hout : ∀ c ∈ m.ranges, ¬ c.contains code = true := by
      intro c hc
      rw [hranges] at hc
      obtain ⟨r, hr, rfl⟩ := List.mem_map.mp hc
      exact List.any_eq_false.mp hin r hr
    rw [m.get_of_not_contains hout, hdefault]
    rfl

end RangeMap

namespace Spec

variable {s : Spec} {p : Property} {name : String}

/-! ## Making properties -/

/-- **A property without a side table can be made** with a fixed split once it has a name, and the layout,
the ranges and the values are accepted. -/
theorem exists_build_fixed {levels : List Nat} {layout : Layout} (hsplit : s.split = .fixed levels)
    (hlayout : Layout.ofLevels s.domainBits levels s.width s.packed = .ok layout)
    (hd : s.map.requireDomain s.domainBits = .ok ()) (hw : s.map.requireWidth s.width = .ok ())
    (hname : s.name ≠ "") (hkind : s.kind ≠ .codepointList) (hside : s.sideTable = none) :
    ∃ p, s.build = .ok p := by
  obtain ⟨made, hmade⟩ := exists_compile_fixed hsplit hlayout hd hw
  let p : Property := ⟨s.name, s.kind, made.table, none, made.report, hname, by simp [hkind], by simp⟩
  refine ⟨p, build_eq_ok.mpr ⟨made, made.log, hmade, ?_⟩⟩
  rw [hside]
  exact p.ofParts_self

/-- **Ranges without values make a specification** if they are in order. -/
theorem ofFlags_eq_ok {ranges : List (UInt32 × UInt32)} (name : String) (hle : ∀ r ∈ ranges, r.1 ≤ r.2)
    (hsep : ranges.Pairwise fun a b => a.2 < b.1) :
    ∃ map : RangeMap, (map.ranges = ranges.map fun r => ⟨r.1, r.2, 1⟩) ∧ map.default = 0 ∧
      ofFlags name ranges = .ok { name, kind := .boolean, width := .one, map, packed := true } := by
  have hmap : ∃ map, RangeMap.ofRanges (ranges.map fun r => ⟨r.1, r.2, 1⟩) 0 = .ok map := by
    exact (RangeMap.exists_ofRanges _ _).mpr
      ⟨List.forall_mem_map.mpr hle, List.pairwise_map.mpr hsep⟩
  obtain ⟨map, hmap⟩ := hmap
  obtain ⟨hranges, hdefault⟩ := RangeMap.ofRanges_eq_ok.mp hmap
  refine ⟨map, hranges, hdefault, ?_⟩
  simp only [ofFlags, hmap]

theorem ofLists_defaults {capacity : Nat} {lists : List (UInt32 × List UInt32)}
    (h : ofLists name capacity lists = .ok s) :
    s.packed = false ∧ s.domainBits = CodePoint.standardBits := by
  unfold ofLists at h
  split at h
  · cases h
  split at h
  · cases h
  split at h
  · cases h
  cases h
  exact ⟨rfl, rfl⟩

/-! ## What properties say -/

theorem build_flags {ranges : List (UInt32 × UInt32)} (hkind : s.kind = .boolean)
    (hranges : s.map.ranges = ranges.map fun r => ⟨r.1, r.2, 1⟩) (hdefault : s.map.default = 0)
    (h : s.build = .ok p) (code : UInt32) : p.get code = .boolean (inRanges ranges code) := by
  obtain ⟨hsame, -, -, hstored⟩ := build_stored h
  unfold Property.get
  rw [hsame, hkind, hstored, ← RangeMap.get_bne_zero hranges hdefault]

theorem build_enumeration (hkind : s.kind = .enumeration) (h : s.build = .ok p) (code : UInt32) :
    p.get code = .enumeration (s.map.get code) := by
  obtain ⟨hsame, -, -, hstored⟩ := build_stored h
  unfold Property.get
  rw [hsame, hkind, hstored]

theorem build_valueIn {ranges : List (UInt32 × UInt32 × Int)} (hkind : s.kind = .signedDelta)
    (hranges : s.map.ranges = ranges.map (deltaRange s.width)) (hdefault : s.map.default = 0)
    (hroom : ∀ r ∈ ranges, Delta.HasRoom r.2.2 s.width) (h : s.build = .ok p) (code : UInt32) :
    p.get code = .signedDelta (valueIn ranges 0 code) := by
  rw [build_delta hkind h code]
  rcases valueIn_cases ranges 0 code with ⟨r, hr, hfirst, hlast, hvalue⟩ | ⟨hnone, hvalue⟩
  · rw [hvalue, decode_get_of_mem hranges hroom hr hfirst hlast]
  · rw [hvalue, decode_get_of_not_mem hranges hdefault hnone]

theorem Listed.build_listFor {lists : List (UInt32 × List UInt32)} {b : Interner}
    (h : Listed s lists b) (hp : s.build = .ok p) (code : UInt32) :
    ∃ c : CodePoints, p.get code = .codepoints c ∧ c.codes = listFor lists code := by
  obtain ⟨hlisted, hother⟩ := h.build_get hp code
  rcases listFor_cases lists code with ⟨payload, -, hmem, hlist⟩ | ⟨-, hnone, hlist⟩
  · rw [hlist]
    exact hlisted payload hmem
  · rw [hlist]
    exact ⟨_, hother hnone, rfl⟩

end Spec

/-! ## Catalogs -/

namespace Catalog

/-- **Specifications that can all be made**, under distinct names: nothing fails, and the catalog gives
under each name what the property of that specification says. -/
theorem build_complete {specs : List Spec} (hnodup : (specs.map (·.name)).Nodup)
    (h : ∀ s ∈ specs, ∃ p, s.build = .ok p) :
    (build specs).failures = [] ∧ (build specs).catalog.size = specs.length ∧
      ∀ s ∈ specs, ∀ p, s.build = .ok p → ∀ code,
        (build specs).catalog.get s.name code = .ok (p.get code) := by
  obtain ⟨hconsistent, -, hprops, hfailures⟩ := build_holds specs
  rw [outcomes_of_nodup hnodup] at hprops hfailures
  have hnone : (build specs).failures = [] := by
    rw [hfailures, List.filterMap_map]
    refine List.filterMap_eq_nil_iff.mpr fun s hs => ?_
    obtain ⟨p, hp⟩ := h s hs
    simp [hp, failure?]
  refine ⟨hnone, ?_, fun s hs p hp code => ?_⟩
  · have hcount := length_oks_add_failures (specs.map Spec.build)
    rwa [← hprops, ← hfailures, hnone, List.length_nil, Nat.add_zero, List.length_map,
      Array.length_toList] at hcount
  · have hmem : p ∈ (build specs).catalog.properties := by
      rw [← Array.mem_toList_iff, hprops]
      exact List.mem_filterMap.mpr ⟨.ok p, List.mem_map.mpr ⟨s, hs, hp⟩, rfl⟩
    have hfind := hconsistent.find?_eq_some.mpr ⟨hmem, Spec.build_name hp⟩
    exact (find_eq_ok hfind).2.2 code

end Catalog

end Multistage
