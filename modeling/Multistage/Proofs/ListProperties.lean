import Multistage.Proofs.Interning
import Multistage.Proofs.RecordSafety
import Multistage.Proofs.SpecOutcome

/-!
# Properties made of lists of code points

`Spec.ofLists` gives each list a record and each code point the number of its record.  The width is
chosen from the number of records, so every number has room in it and every number is that of a record,
whatever the split of the key; the property gives back the lists it was made of.

* `Spec.recordRange` — the range of one code point.
* `Spec.internAll_eq_ok` — a run of lists.
* `Spec.Listed` — what a specification made of lists looks like.
* `Spec.lists_exact` — when there is one, and what its property gives.
-/

namespace Multistage

namespace Spec

/-! ## A run of lists -/

/-- The range of a code point: the value is the record number of its list among the distinct ones. -/
def recordRange (payloads : List (List UInt32)) (entry : UInt32 × List UInt32) : CodeRange :=
  ⟨entry.1, entry.1, UInt32.ofNat (payloads.eraseDups.idxOf entry.2 + 1)⟩

theorem recordRange_append {payloads : List (List UInt32)} {entry : UInt32 × List UInt32}
    (h : entry.2 ∈ payloads) (more : List (List UInt32)) :
    recordRange (payloads ++ more) entry = recordRange payloads entry := by
  unfold recordRange
  rw [idxOf_eraseDups_append h]

/-- **A run of lists that have room in a record**, from any interner on. -/
theorem internAll_eq_ok : ∀ (lists : List (UInt32 × List UInt32)) {b : Interner}
    {seen : List (List UInt32)} (ranges : List CodeRange), b.Holds seen →
    (∀ entry ∈ lists, CodeList.Fits b.table.capacity entry.2) →
    ∃ b', b'.Holds (seen ++ lists.map (·.2)) ∧ internAll b lists ranges =
      .ok (b', ranges.reverse ++ lists.map (recordRange (seen ++ lists.map (·.2))))
  | [], b, seen, ranges, h, _ => ⟨b, by simpa using h, by simp [internAll]⟩
  | (code, payload) :: rest, b, seen, ranges, h, hfits => by
    obtain ⟨b₁, hintern, h₁, hcapacity⟩ := b.intern_holds h (hfits (code, payload) (by simp))
    have hrest : ∀ entry ∈ rest, CodeList.Fits b₁.table.capacity entry.2 := by
      intro entry hentry
      rw [hcapacity]
      exact hfits entry (List.mem_cons_of_mem _ hentry)
    obtain ⟨b', h', hrun⟩ := internAll_eq_ok rest
      (recordRange (seen ++ [payload]) (code, payload) :: ranges) h₁ hrest
    have hseen : seen ++ [payload] ++ rest.map (·.2) =
        seen ++ ((code, payload) :: rest).map (·.2) := by simp
    -- the number of the first list does not change with the lists after it
    have hfirst : recordRange (seen ++ [payload] ++ rest.map (·.2)) (code, payload) =
        recordRange (seen ++ [payload]) (code, payload) := recordRange_append (by simp) _
    rw [hseen] at h' hrun hfirst
    refine ⟨b', h', ?_⟩
    rw [internAll, hintern]
    refine hrun.trans ?_
    rw [← hfirst, List.reverse_cons, List.append_assoc]
    rfl

theorem fits_of_internAll : ∀ {lists : List (UInt32 × List UInt32)} {b b' : Interner}
    {ranges ranges' : List CodeRange}, internAll b lists ranges = .ok (b', ranges') →
    ∀ entry ∈ lists, CodeList.Fits b.table.capacity entry.2
  | [], _, _, _, _, _, entry, hentry => by simp at hentry
  | (code, payload) :: rest, b, b', ranges, ranges', h, entry, hentry => by
    rw [internAll] at h
    by_cases hfits : CodeList.Fits b.table.capacity payload
    · split at h
      · cases h
      · rename_i number b₁ hintern
        rcases List.mem_cons.mp hentry with rfl | hentry
        · exact hfits
        · rw [← b.intern_capacity hintern]
          exact fits_of_internAll h entry hentry
    · rw [b.intern_eq_error hfits] at h
      cases h

/-! ## The specification -/

/-- What a specification made of lists looks like. -/
structure Listed (s : Spec) (lists : List (UInt32 × List UInt32)) (b : Interner) : Prop where
  holds : b.Holds (lists.map (·.2))
  kind : s.kind = .codepointList
  sideTable : s.sideTable = some b.table
  width : s.width = indexWidth b.table.recordCount
  default : s.map.default = 0
  ranges : s.map.ranges = lists.map (recordRange (lists.map (·.2)))

variable {name : String} {capacity : Nat} {lists : List (UInt32 × List UInt32)} {s : Spec}

theorem ofLists_eq_ok (h : ofLists name capacity lists = .ok s) :
    ∃ empty b ranges, Interner.empty capacity = .ok empty ∧
      internAll empty lists [] = .ok (b, ranges) ∧ RangeMap.ofRanges ranges 0 = .ok s.map ∧
      s.name = name ∧ s.kind = .codepointList ∧ s.width = indexWidth b.table.recordCount ∧
      s.sideTable = some b.table := by
  unfold ofLists at h
  split at h
  · cases h
  rename_i empty hempty
  split at h
  · cases h
  rename_i b ranges hrun
  split at h
  · cases h
  rename_i map hmap
  cases h
  exact ⟨empty, b, ranges, hempty, hrun, hmap, rfl, rfl, rfl, rfl⟩

theorem ofLists_listed (h : ofLists name capacity lists = .ok s) :
    s.name = name ∧ (1 ≤ capacity ∧ capacity ≤ maxCodes) ∧
      (∀ entry ∈ lists, CodeList.Fits capacity entry.2) ∧ ∃ b, Listed s lists b := by
  obtain ⟨empty, b, ranges, hempty, hrun, hmap, hname, hkind, hwidth, hside⟩ := ofLists_eq_ok h
  obtain ⟨hcapacity, hholds⟩ := Interner.empty_holds hempty
  have hfits := fits_of_internAll hrun
  obtain ⟨b', hholds', hrun'⟩ := internAll_eq_ok lists [] hholds hfits
  rw [hrun, List.reverse_nil, List.nil_append, List.nil_append, Except.ok.injEq,
    Prod.mk.injEq] at hrun'
  obtain ⟨rfl, rfl⟩ := hrun'
  obtain ⟨hranges, hdefault⟩ := RangeMap.ofRanges_eq_ok.mp hmap
  rw [hcapacity] at hfits
  exact ⟨hname, (Interner.exists_empty capacity).mp ⟨empty, hempty⟩, hfits,
    b, hholds', hkind, hside, hwidth, hdefault, hranges⟩

theorem Listed.sorted {b : Interner} (h : Listed s lists b) :
    lists.Pairwise fun a b => a.1 < b.1 := by
  have hsep := s.map.separated
  rw [h.ranges, List.pairwise_map] at hsep
  exact hsep

/-- **Lists make a specification exactly if** records have room for one to four code points, every list
has room in a record, and the code points are in order. -/
theorem exists_ofLists (name : String) (capacity : Nat) (lists : List (UInt32 × List UInt32)) :
    (∃ s, ofLists name capacity lists = .ok s) ↔ (1 ≤ capacity ∧ capacity ≤ maxCodes) ∧
      (∀ entry ∈ lists, CodeList.Fits capacity entry.2) ∧
      lists.Pairwise fun a b => a.1 < b.1 := by
  constructor
  · rintro ⟨s, h⟩
    obtain ⟨-, hcapacity, hfits, b, hlisted⟩ := ofLists_listed h
    exact ⟨hcapacity, hfits, hlisted.sorted⟩
  · rintro ⟨hcapacity, hfits, hsorted⟩
    obtain ⟨empty, hempty⟩ := (Interner.exists_empty capacity).mpr hcapacity
    obtain ⟨hsame, hholds⟩ := Interner.empty_holds hempty
    rw [← hsame] at hfits
    obtain ⟨b, -, hrun⟩ := internAll_eq_ok lists [] hholds hfits
    have hmap : ∃ map, RangeMap.ofRanges ([].reverse ++
        lists.map (recordRange ([] ++ lists.map (·.2)))) 0 = .ok map := by
      refine (RangeMap.exists_ofRanges _ _).mpr ⟨fun r hr => ?_, List.pairwise_map.mpr hsorted⟩
      obtain ⟨entry, -, rfl⟩ := List.mem_map.mp hr
      exact UInt32.le_refl _
    obtain ⟨map, hmap⟩ := hmap
    simp only [ofLists, hempty, hrun, hmap]
    exact ⟨_, rfl⟩

/-! ## Numbers of records -/

/-- The width is chosen so that every record number has room in it. -/
theorem lt_indexWidth {rows index : Nat} (h : index < rows) (hword : index < 2 ^ 32) :
    index < 2 ^ (indexWidth rows).bits := by
  unfold indexWidth
  split
  · show index < 256
    omega
  · split
    · show index < 65536
      omega
    · exact hword

theorem fits_indexWidth {rows number : Nat} (h : number < rows) :
    (indexWidth rows).fits (UInt32.ofNat number) = true := by
  have hle : (UInt32.ofNat number).toNat ≤ number := Nat.mod_le _ _
  rw [Width.fits_iff]
  exact lt_indexWidth (by omega) (UInt32.ofNat number).toNat_lt

namespace Listed

variable {b : Interner} {code : UInt32} {payload : List UInt32}

theorem resplit (h : Listed s lists b) (packed : Bool) (domainBits : Nat) (split : SplitRule) :
    Listed { s with packed, domainBits, split } lists b :=
  ⟨h.holds, h.kind, h.sideTable, h.width, h.default, h.ranges⟩

theorem number_lt (h : Listed s lists b) (hm : (code, payload) ∈ lists) :
    (lists.map (·.2)).eraseDups.idxOf payload + 1 < b.table.recordCount := by
  have hmem : payload ∈ lists.map (·.2) := List.mem_map.mpr ⟨_, hm, rfl⟩
  rw [h.holds.recordCount]
  exact Nat.succ_lt_succ (List.idxOf_lt_length_of_mem (List.mem_eraseDups.mpr hmem))

theorem get_of_mem (h : Listed s lists b) (hm : (code, payload) ∈ lists) :
    s.map.get code = UInt32.ofNat ((lists.map (·.2)).eraseDups.idxOf payload + 1) := by
  have hr : recordRange (lists.map (·.2)) (code, payload) ∈ s.map.ranges := by
    rw [h.ranges]
    exact List.mem_map_of_mem hm
  apply s.map.get_of_contains hr
  rw [CodeRange.contains_iff]
  exact ⟨UInt32.le_refl _, UInt32.le_refl _⟩

theorem get_of_not_mem (h : Listed s lists b) (hn : ∀ entry ∈ lists, entry.1 ≠ code) :
    s.map.get code = 0 := by
  rw [← h.default]
  apply s.map.get_of_not_contains
  intro r hr hc
  rw [h.ranges] at hr
  obtain ⟨entry, hentry, rfl⟩ := List.mem_map.mp hr
  obtain ⟨hle, hge⟩ := (CodeRange.contains_iff _ _).mp hc
  exact hn entry hentry (UInt32.le_antisymm hle hge)

theorem get_lt (h : Listed s lists b) (code : UInt32) :
    (s.map.get code).toNat < b.table.recordCount := by
  by_cases hm : ∃ payload, (code, payload) ∈ lists
  · obtain ⟨payload, hm⟩ := hm
    rw [h.get_of_mem hm]
    exact Nat.lt_of_le_of_lt (Nat.mod_le _ _) (h.number_lt hm)
  · have hn : ∀ entry ∈ lists, entry.1 ≠ code := by
      rintro ⟨code', payload⟩ hentry rfl
      exact hm ⟨payload, hentry⟩
    rw [h.get_of_not_mem hn]
    exact Nat.succ_pos _

theorem requireWidth (h : Listed s lists b) : s.map.requireWidth s.width = .ok () := by
  rw [RangeMap.requireWidth_eq_ok, h.width, h.default, h.ranges]
  constructor
  · intro r hr
    obtain ⟨entry, hentry, rfl⟩ := List.mem_map.mp hr
    exact fits_indexWidth (h.number_lt hentry)
  · exact fits_indexWidth (Nat.succ_pos _)

/-- There are no more lists than keys in the domain: each has a code point of its own. -/
theorem length_le (h : Listed s lists b) (hd : s.map.requireDomain s.domainBits = .ok ()) :
    lists.length ≤ 2 ^ s.domainBits := by
  have hnodup : (lists.map (·.1.toNat)).Nodup :=
    List.pairwise_map.mpr (h.sorted.imp fun hlt => Nat.ne_of_lt (UInt32.lt_iff_toNat_lt.mp hlt))
  have hsub : lists.map (·.1.toNat) ⊆ List.range (2 ^ s.domainBits) := by
    intro key hkey
    obtain ⟨entry, hentry, rfl⟩ := List.mem_map.mp hkey
    apply List.mem_range.mpr
    apply RangeMap.last_lt_of_requireDomain hd (r := recordRange (lists.map (·.2)) entry)
    rw [h.ranges]
    exact List.mem_map_of_mem hentry
  have hle := (List.subperm_of_subset hnodup hsub).length_le
  rwa [List.length_map, List.length_range] at hle

/-- The keys of a domain are fewer than the words, so numbers do not wrap. -/
theorem toNat_number (h : Listed s lists b) (hbits : s.domainBits ≤ maxKeyBits)
    (hd : s.map.requireDomain s.domainBits = .ok ()) (hm : (code, payload) ∈ lists) :
    (UInt32.ofNat ((lists.map (·.2)).eraseDups.idxOf payload + 1)).toNat =
      (lists.map (·.2)).eraseDups.idxOf payload + 1 := by
  have hdistinct := length_eraseDups_le (lists.map (·.2))
  rw [List.length_map] at hdistinct
  have hkeys : 2 ^ s.domainBits ≤ 2 ^ maxKeyBits := Nat.pow_le_pow_right (by omega) hbits
  have hwords : 2 ^ maxKeyBits + 1 < UInt32.size := by decide
  have hnumber := h.number_lt hm
  have hlength := h.length_le hd
  rw [h.holds.recordCount] at hnumber
  exact UInt32.toNat_ofNat_of_lt' (by omega)

/-! ## The property -/

theorem requireCovers (h : Listed s lists b) {made : Compilation} {log : List Log.Line}
    (hc : s.compile = .ok (made, log)) : b.table.requireCovers made.table = .ok () := by
  obtain ⟨-, -, -, hget⟩ := compile_get hc
  refine (b.table.requireCovers_eq_ok made.table).mpr fun code => ?_
  rw [hget]
  exact h.get_lt code

theorem exists_build (h : Listed s lists b) (hname : s.name ≠ "") {made : Compilation}
    {log : List Log.Line} (hc : s.compile = .ok (made, log)) : ∃ p, s.build = .ok p := by
  obtain ⟨p, hp⟩ := Property.exists_ofParts_list hname (h.requireCovers hc) made.report
  rw [← h.kind, ← h.sideTable] at hp
  exact ⟨p, Spec.build_eq_ok.mpr ⟨made, log, hc, hp⟩⟩

/-- **The only ways in which the property cannot be made**: a request for a table that makes no sense,
and an empty name. -/
theorem build_eq_error (h : Listed s lists b) {e : Error} (he : s.build = .error e) :
    ∃ cause, e = .property s.name (.config cause) ∧
      (cause.aboutTable = true ∨ cause = .emptyName) := by
  obtain ⟨source, rfl, hc | ⟨made, log, hc, hparts⟩⟩ := Spec.build_eq_error he
  · rcases compile_eq_error hc with ⟨cause, rfl, hcause⟩ | hw
    · exact ⟨cause, rfl, .inl hcause⟩
    · rw [h.requireWidth] at hw
      cases hw
  · by_cases hname : s.name = ""
    · rw [Property.ofParts, dif_pos hname] at hparts
      cases hparts
      exact ⟨_, rfl, .inr rfl⟩
    · obtain ⟨p, hp⟩ := h.exists_build hname hc
      rw [hp] at he
      cases he

/-- **The property gives back the lists it was made of**, and any other code point itself. -/
theorem build_get (h : Listed s lists b) {p : Property} (hp : s.build = .ok p) (code : UInt32) :
    (∀ payload, (code, payload) ∈ lists →
      ∃ c : CodePoints, p.get code = .codepoints c ∧ c.codes = payload) ∧
    ((∀ entry ∈ lists, entry.1 ≠ code) → p.get code = .codepoints (CodePoints.single code)) := by
  obtain ⟨hbits, hd⟩ := build_domain hp
  obtain ⟨hkind, hside, -, hstored⟩ := build_stored hp
  have hvalue : p.get code = .codepoints (b.table.lookup (s.map.get code) code) := by
    unfold Property.get
    rw [hkind, h.kind, hside, h.sideTable, hstored]
  constructor
  · intro payload hm
    have hmem : payload ∈ lists.map (·.2) := List.mem_map.mpr ⟨_, hm, rfl⟩
    rw [h.get_of_mem hm] at hvalue
    exact ⟨_, hvalue, h.holds.lookup_codes hmem (h.toNat_number hbits hd hm) code⟩
  · intro hn
    rw [hvalue, h.get_of_not_mem hn]
    rfl

end Listed

/-- **Lists of code points from end to end.**  They make a specification exactly if records have room
for one to four code points, every list has from one code point to as many as a record has room for,
and the code points are in order.  There is a record for each distinct list besides the blank one, and
the width has room for all their numbers.  However the key is split, and whatever the domain, the
property is never refused for a value without room or without a record; once it is made, it gives each
listed code point its list, and any other one itself. -/
theorem lists_exact (name : String) (capacity : Nat) (lists : List (UInt32 × List UInt32)) :
    ((∃ s, ofLists name capacity lists = .ok s) ↔ (1 ≤ capacity ∧ capacity ≤ 4) ∧
      (∀ entry ∈ lists, 1 ≤ entry.2.length ∧ entry.2.length ≤ capacity) ∧
      lists.Pairwise fun a b => a.1 < b.1) ∧
    ∀ s, ofLists name capacity lists = .ok s →
      (∃ side, s.sideTable = some side ∧
        side.recordCount = (lists.map (·.2)).eraseDups.length + 1 ∧
        ((lists.map (·.2)).eraseDups.length < 2 ^ 32 - 1 →
          ∀ index < side.recordCount, index < 2 ^ s.width.bits)) ∧
      ∀ (packed : Bool) (domainBits : Nat) (split : SplitRule),
        (∀ e, build { s with packed, domainBits, split } = .error e →
          ∃ cause, e = .property name (.config cause) ∧
            ∀ value records, cause ≠ .danglingRecord value records) ∧
        ∀ p, build { s with packed, domainBits, split } = .ok p → ∀ code,
          (∀ payload, (code, payload) ∈ lists →
            ∃ c : CodePoints, p.get code = .codepoints c ∧ c.codes = payload) ∧
          ((∀ entry ∈ lists, entry.1 ≠ code) →
            p.get code = .codepoints (CodePoints.single code)) := by
  refine ⟨exists_ofLists name capacity lists, fun s hs => ?_⟩
  obtain ⟨hname, -, -, b, h⟩ := ofLists_listed hs
  refine ⟨⟨b.table, h.sideTable, h.holds.recordCount, fun hfew index hindex => ?_⟩, ?_⟩
  · rw [h.holds.recordCount] at hindex
    rw [h.width, h.holds.recordCount]
    exact lt_indexWidth hindex (by omega)
  · intro packed domainBits split
    have h' := h.resplit packed domainBits split
    refine ⟨fun e he => ?_, fun p hp code => h'.build_get hp code⟩
    obtain ⟨cause, rfl, hcause⟩ := h'.build_eq_error he
    rw [← hname]
    refine ⟨cause, rfl, ?_⟩
    rintro value records rfl
    simp [ConfigCause.aboutTable] at hcause

/-- Three of four code points have a list, two of them the same. -/
theorem lists_exact_shared :
    ∃ s p, ofLists "Fold" 2 [(1, [0x73, 0x73]), (2, [0x61]), (3, [0x73, 0x73])] = .ok s ∧
      build { s with packed := false, domainBits := 2, split := .fixed [1, 1] } = .ok p ∧
      (∃ side, s.sideTable = some side ∧ side.recordCount = 3) ∧
      (∃ c : CodePoints, p.get 2 = .codepoints c ∧ c.codes = [0x61]) ∧
      (∃ c : CodePoints, p.get 3 = .codepoints c ∧ c.codes = [0x73, 0x73]) ∧
      p.get 0 = .codepoints (CodePoints.single 0) := by
  obtain ⟨hiff, hspec⟩ :=
    lists_exact "Fold" 2 [(1, [0x73, 0x73]), (2, [0x61]), (3, [0x73, 0x73])]
  obtain ⟨s, hs⟩ := hiff.mpr (by decide)
  obtain ⟨⟨side, hside, hcount, -⟩, hbuild⟩ := hspec s hs
  obtain ⟨hname, -, -, b, h⟩ := ofLists_listed hs
  have hwidth : s.width = .eight := by
    rw [h.width, h.holds.recordCount]
    rfl
  have hd : s.map.requireDomain 2 = .ok () := by
    rw [RangeMap.requireDomain_eq_ok _ (by decide), h.ranges]
    decide
  let s' : Spec := { s with packed := false, domainBits := 2, split := .fixed [1, 1] }
  have h' : Listed s' _ b := h.resplit false 2 (.fixed [1, 1])
  let layout : Layout := ⟨2, [1, 1], .eight, false, by decide, by decide, by decide, by decide,
    by decide, by decide, by decide, by decide⟩
  have hlayout : Layout.ofLevels 2 [1, 1] s.width false = .ok layout := by
    rw [hwidth]
    exact layout.ofLevels_self
  obtain ⟨made, hmade⟩ := exists_compile_fixed (s := s') rfl hlayout hd h'.requireWidth
  obtain ⟨p, hp⟩ := h'.exists_build (by rw [hname]; decide) hmade
  obtain ⟨-, hget⟩ := hbuild false 2 (.fixed [1, 1])
  exact ⟨s, p, hs, hp, ⟨side, hside, hcount⟩, (hget p hp 2).1 _ (by decide),
    (hget p hp 3).1 _ (by decide), (hget p hp 0).2 (by decide)⟩

end Spec

end Multistage
