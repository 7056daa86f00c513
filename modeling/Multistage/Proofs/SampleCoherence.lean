import Multistage.Proofs.RangeProperties
import Multistage.Sample

/-!
# The sample catalog is coherent

Every specification of the sample can be made, so the catalog is complete and each of its functions gives
every code point what the data say.  What one function says about a code point is then compared with what
it says about the outcome; the data are finite, so each such law is a check of every entry against every
other one.

* `Provides` — a specification that can be made, and what its property says.
* `provides_flags`, `provides_deltas`, `provides_lists` — specifications of the common kinds.
* `catalog_complete` — the catalog, and what it gives under each name.
* `foldsOnce`, `formsClasses`, `leadsOut` — checks of the data, and the laws that they imply.
* `flag_of_provides`, `codepoints_of_provides` — the functions that read the catalog.
* `coherent` — the functions of the sample, and how they agree with themselves.
-/

namespace Multistage

theorem CodeList.eq_of_codes {limit : Nat} {a b : CodeList limit} (h : a.codes = b.codes) : a = b := by
  cases a
  cases b
  cases h
  rfl

namespace Sample

/-! ## Specifications -/

/-- The specification can be made, has the name, and its property says this about each code point. -/
def Provides (made : Except Error Spec) (name : String) (meaning : UInt32 → Value → Prop) : Prop :=
  ∃ s p, made = .ok s ∧ s.name = name ∧ s.build = .ok p ∧ ∀ code, meaning code (p.get code)

variable {name : String} {levels : List Nat} {layout : Layout}

theorem provides_flags {ranges : List (UInt32 × UInt32)}
    (hlayout : Layout.standard levels .one true = .ok layout) (hname : name ≠ "")
    (hle : ∀ r ∈ ranges, r.1 ≤ r.2) (hsep : ranges.Pairwise fun a b => a.2 < b.1)
    (hdomain : ∀ r ∈ ranges, r.2.toNat < 2 ^ CodePoint.standardBits) :
    Provides (withLevels levels (Spec.ofFlags name ranges)) name fun code v =>
      v = .boolean (inRanges ranges code) := by
  obtain ⟨map, hranges, hdefault, hmade⟩ := Spec.ofFlags_eq_ok name hle hsep
  let s : Spec := { name, kind := .boolean, width := .one, map, packed := true, split := .fixed levels }
  have hd : map.requireDomain CodePoint.standardBits = .ok () := by
    rw [RangeMap.requireDomain_eq_ok _ (by decide), hranges]
    exact List.forall_mem_map.mpr hdomain
  have hw : map.requireWidth .one = .ok () := by
    rw [RangeMap.requireWidth_eq_ok, hranges, hdefault]
    exact ⟨List.forall_mem_map.mpr fun _ _ => rfl, rfl⟩
  have hkind : s.kind ≠ .codepointList := by
    show Kind.boolean ≠ .codepointList
    decide
  obtain ⟨p, hp⟩ := Spec.exists_build_fixed (s := s) rfl hlayout hd hw hname hkind rfl
  refine ⟨s, p, ?_, rfl, hp, Spec.build_flags (s := s) rfl hranges hdefault hp⟩
  rw [hmade]
  rfl

theorem provides_deltas {width : Width} {ranges : List (UInt32 × UInt32 × Int)}
    (hlayout : Layout.standard levels width false = .ok layout) (hname : name ≠ "")
    (hle : ∀ r ∈ ranges, r.1 ≤ r.2.1) (hsep : ranges.Pairwise fun a b => a.2.1 < b.1)
    (hroom : ∀ r ∈ ranges, Delta.HasRoom r.2.2 width)
    (hdomain : ∀ r ∈ ranges, r.2.1.toNat < 2 ^ CodePoint.standardBits) :
    Provides (withLevels levels (Spec.ofDeltas name width ranges)) name fun code v =>
      v = .signedDelta (valueIn ranges 0 code) := by
  obtain ⟨map, hranges, hdefault, hmade⟩ := Spec.ofDeltas_eq_ok name hle hsep hroom
  let s : Spec := { name, kind := .signedDelta, width, map, split := .fixed levels }
  have hd : map.requireDomain CodePoint.standardBits = .ok () := by
    rw [RangeMap.requireDomain_eq_ok _ (by decide), hranges]
    exact List.forall_mem_map.mpr hdomain
  have hw : map.requireWidth width = .ok () := by
    rw [RangeMap.requireWidth_eq_ok, hranges, hdefault]
    exact ⟨List.forall_mem_map.mpr fun _ _ => Delta.fits_word _ _, by cases width <;> rfl⟩
  have hkind : s.kind ≠ .codepointList := by
    show Kind.signedDelta ≠ .codepointList
    decide
  obtain ⟨p, hp⟩ := Spec.exists_build_fixed (s := s) rfl hlayout hd hw hname hkind rfl
  refine ⟨s, p, ?_, rfl, hp, Spec.build_valueIn (s := s) rfl hranges hdefault hroom hp⟩
  rw [hmade]
  rfl

/-- Fewer than 256 lists have record numbers of one byte. -/
theorem provides_lists {capacity : Nat} {lists : List (UInt32 × List UInt32)}
    (hlayout : Layout.standard levels .eight false = .ok layout) (hname : name ≠ "")
    (hcapacity : 1 ≤ capacity ∧ capacity ≤ maxCodes)
    (hfits : ∀ entry ∈ lists, CodeList.Fits capacity entry.2)
    (hsorted : lists.Pairwise fun a b => a.1 < b.1) (hfew : lists.length < 256)
    (hdomain : ∀ entry ∈ lists, entry.1.toNat < 2 ^ CodePoint.standardBits) :
    Provides (withLevels levels (Spec.ofLists name capacity lists)) name fun code v =>
      ∃ c : CodePoints, v = .codepoints c ∧ c.codes = listFor lists code := by
  obtain ⟨s, hs⟩ := (Spec.exists_ofLists name capacity lists).mpr ⟨hcapacity, hfits, hsorted⟩
  obtain ⟨hsame, -, -, b, hlisted⟩ := Spec.ofLists_listed hs
  obtain ⟨hpacked, hstandard⟩ := Spec.ofLists_defaults hs
  have hwidth : s.width = .eight := by
    have hdistinct := length_eraseDups_le (lists.map (·.2))
    rw [List.length_map] at hdistinct
    rw [hlisted.width, hlisted.holds.recordCount, Spec.indexWidth, if_pos (by omega)]
  have hd : s.map.requireDomain s.domainBits = .ok () := by
    rw [hstandard, RangeMap.requireDomain_eq_ok _ (by decide), hlisted.ranges]
    exact List.forall_mem_map.mpr hdomain
  have hlisted' : Spec.Listed { s with split := .fixed levels } lists b :=
    hlisted.resplit s.packed s.domainBits (.fixed levels)
  obtain ⟨made, hmade⟩ := Spec.exists_compile_fixed (s := { s with split := .fixed levels }) rfl
    (by rw [hwidth, hpacked, hstandard]; exact hlayout) hd hlisted'.requireWidth
  obtain ⟨p, hp⟩ := hlisted'.exists_build (by rw [hsame]; exact hname) hmade
  refine ⟨{ s with split := .fixed levels }, p, ?_, hsame, hp, hlisted'.build_listFor hp⟩
  rw [hs]
  rfl

/-! ## The properties of the sample -/

/-- Eight, seven and six bits, for packed values of one bit. -/
def flagLayout : Layout :=
  ⟨21, [8, 7, 6], .one, true, by decide, by decide, by decide, by decide, by decide, by decide,
    by decide, by decide⟩

/-- Eleven, five and five bits, for packed values of four bits. -/
def classLayout : Layout :=
  ⟨21, [11, 5, 5], .four, true, by decide, by decide, by decide, by decide, by decide, by decide,
    by decide, by decide⟩

/-- Nine, six and six bits, for values of the given width. -/
def caseLayout (width : Width) : Layout :=
  ⟨21, [9, 6, 6], width, false, by decide, by decide, by decide, by decide, by decide, by decide,
    by simp, by simp⟩

theorem whiteSpace_provides : Provides whiteSpaceSpec whiteSpaceName fun code v =>
    v = .boolean (inRanges whiteSpaceRanges code) :=
  provides_flags flagLayout.ofLevels_self (by decide) (by simp [whiteSpaceRanges]) (by decide)
    (by simp [whiteSpaceRanges, CodePoint.standardBits])

theorem hexDigit_provides : Provides hexDigitSpec hexDigitName fun code v =>
    v = .boolean (inRanges hexDigitRanges code) :=
  provides_flags flagLayout.ofLevels_self (by decide) (by simp [hexDigitRanges]) (by decide)
    (by simp [hexDigitRanges, CodePoint.standardBits])

theorem asciiClass_provides : Provides asciiClassSpec asciiClassName fun code v =>
    v = .enumeration (valueIn asciiClassRanges .other code).ordinal := by
  obtain ⟨map, hmap⟩ := (RangeMap.exists_ofRanges
    (asciiClassRanges.map fun r => ⟨r.1, r.2.1, r.2.2.ordinal⟩) AsciiClass.other.ordinal).mpr
    ⟨by decide, by decide⟩
  obtain ⟨hranges, hdefault⟩ := RangeMap.ofRanges_eq_ok.mp hmap
  let s : Spec := { name := asciiClassName, kind := .enumeration, width := .four, map, packed := true,
                    split := .fixed [11, 5, 5] }
  have hd : map.requireDomain CodePoint.standardBits = .ok () := by
    rw [RangeMap.requireDomain_eq_ok _ (by decide), hranges]
    decide
  have hw : map.requireWidth .four = .ok () := by
    rw [RangeMap.requireWidth_eq_ok, hranges, hdefault]
    decide
  have hname : asciiClassName ≠ "" := by decide
  have hkind : s.kind ≠ .codepointList := by
    show Kind.enumeration ≠ .codepointList
    decide
  obtain ⟨p, hp⟩ := Spec.exists_build_fixed (s := s) rfl classLayout.ofLevels_self hd hw hname hkind
    rfl
  refine ⟨s, p, ?_, rfl, hp, fun code => ?_⟩
  · unfold asciiClassSpec
    rw [hmap]
  · rw [Spec.build_enumeration rfl hp, RangeMap.get_eq_valueIn hranges hdefault]

theorem simpleLowercase_provides : Provides simpleLowercaseSpec simpleLowercaseName fun code v =>
    v = .signedDelta (valueIn simpleLowercaseRanges 0 code) :=
  provides_deltas (caseLayout .sixteen).ofLevels_self (by decide) (by decide) (by decide)
    (by unfold Delta.HasRoom; decide) (by decide)

theorem fullCaseFolding_provides : Provides fullCaseFoldingSpec fullCaseFoldingName fun code v =>
    ∃ c : CodePoints, v = .codepoints c ∧
      c.codes = listFor (asciiFoldings ++ specialFoldings) code :=
  provides_lists (caseLayout .eight).ofLevels_self (by decide) (by decide)
    (by unfold CodeList.Fits; decide) (by decide +kernel) (by decide) (by decide)

theorem caseVariants_provides : Provides caseVariantsSpec caseVariantsName fun code v =>
    ∃ c : CodePoints, v = .codepoints c ∧ c.codes = listFor caseVariantLists code :=
  provides_lists (caseLayout .eight).ofLevels_self (by decide) (by decide)
    (by unfold CodeList.Fits; decide) (by decide) (by decide) (by decide)

/-! ## The catalog -/

/-- The names of the sample. -/
def names : List String :=
  [whiteSpaceName, hexDigitName, asciiClassName, simpleLowercaseName, fullCaseFoldingName,
    caseVariantsName]

theorem exists_specs : ∀ {row : List (Except Error Spec)} {names : List String},
    List.Forall₂ (fun made name => ∃ meaning, Provides made name meaning) row names →
    ∃ specs, row.mapM id = .ok specs ∧ specs.map (·.name) = names ∧
      (∀ s, .ok s ∈ row → s ∈ specs) ∧ ∀ s ∈ specs, ∃ p, s.build = .ok p
  | _, _, .nil => ⟨[], rfl, rfl, by simp, by simp⟩
  | _, _, .cons ⟨_, s, p, hmade, hname, hp, _⟩ hrest => by
    obtain ⟨specs, hspecs, hnames, hmem, hbuild⟩ := exists_specs hrest
    refine ⟨s :: specs, ?_, by rw [List.map_cons, hname, hnames], fun t ht => ?_, fun t ht => ?_⟩
    · rw [List.mapM_cons, hmade, hspecs]
      rfl
    · rw [hmade] at ht
      rcases List.mem_cons.mp ht with heq | ht
      · cases heq
        exact List.mem_cons_self
      · exact List.mem_cons_of_mem _ (hmem t ht)
    · rcases List.mem_cons.mp ht with rfl | ht
      · exact ⟨p, hp⟩
      · exact hbuild t ht

theorem row_provides : List.Forall₂ (fun made name => ∃ meaning, Provides made name meaning) row names :=
  .cons ⟨_, whiteSpace_provides⟩ <| .cons ⟨_, hexDigit_provides⟩ <| .cons ⟨_, asciiClass_provides⟩ <|
    .cons ⟨_, simpleLowercase_provides⟩ <| .cons ⟨_, fullCaseFolding_provides⟩ <|
    .cons ⟨_, caseVariants_provides⟩ .nil

/-- **The catalog of the sample** is complete, and gives under each name what the property of that name
says. -/
theorem catalog_complete : ∃ made, specs = .ok made ∧ made.map (·.name) = names ∧
    (Catalog.build made).failures = [] ∧ (Catalog.build made).catalog.size = 6 ∧
    catalog = .ok (Catalog.build made).catalog ∧
    ∀ spec name meaning, spec ∈ row → Provides spec name meaning → ∀ code,
      ∃ v, get name code = .ok v ∧ meaning code v := by
  obtain ⟨made, hspecs, hnames, hmem, hbuild⟩ := exists_specs row_provides
  have hnodup : (made.map (·.name)).Nodup := by
    rw [hnames]
    decide
  obtain ⟨hnone, hsize, hget⟩ := Catalog.build_complete hnodup hbuild
  have hconstruction : construction = .ok (Catalog.build made) := by
    unfold construction
    rw [show specs = .ok made from hspecs]
  have hcatalog : catalog = .ok (Catalog.build made).catalog := by
    unfold catalog
    simp only [hconstruction, Catalog.Construction.result, hnone]
  refine ⟨made, hspecs, hnames, hnone, ?_, hcatalog, ?_⟩
  · rw [hsize, ← List.length_map (·.name), hnames]
    rfl
  · rintro spec name meaning hspec ⟨s, p, rfl, rfl, hp, hmeaning⟩ code
    refine ⟨p.get code, ?_, hmeaning code⟩
    unfold get
    rw [hcatalog]
    exact hget s (hmem s hspec) p hp code

/-! ## Laws of the data -/

section Laws

variable {lists : List (UInt32 × List UInt32)} {ranges : List (UInt32 × UInt32 × Int)}

/-- No code point that is given for another one has a list of its own. -/
def foldsOnce (lists : List (UInt32 × List UInt32)) : Bool :=
  lists.all fun entry => entry.2.all fun v => (lists.lookup v).isNone

/-- Every list has the code point that it is given for, and is given for all code points in it. -/
def formsClasses (lists : List (UInt32 × List UInt32)) : Bool :=
  lists.all fun entry =>
    entry.2.contains entry.1 && entry.2.all fun v => lists.lookup v == some entry.2

/-- The distance of a range leads from its code points to code points that are in no range. -/
def leadsOut (ranges : List (UInt32 × UInt32 × Int)) : Bool :=
  ranges.all fun r =>
    decide (0 ≤ r.1.toNat + r.2.2 ∧ r.2.1.toNat + r.2.2 < 2 ^ 32) &&
      ranges.all fun t =>
        decide (r.2.1.toNat + r.2.2 < t.1.toNat ∨ (t.2.1.toNat : Int) < r.1.toNat + r.2.2)

/-- **Folding twice** is folding once. -/
theorem listFor_of_foldsOnce (h : foldsOnce lists = true) {code v : UInt32}
    (hv : v ∈ listFor lists code) : listFor lists v = [v] := by
  have hfree : lists.lookup v = none := by
    rcases listFor_cases lists code with ⟨payload, -, hmem, hlist⟩ | ⟨hnone, -, hlist⟩
    · rw [hlist] at hv
      have hentry := List.all_eq_true.mp h _ hmem
      exact Option.isNone_iff_eq_none.mp (List.all_eq_true.mp hentry v hv)
    · rw [hlist] at hv
      rw [List.mem_singleton.mp hv]
      exact hnone
  rw [listFor, hfree]
  rfl

/-- **The lists are the classes of an equivalence.** -/
theorem listFor_of_formsClasses (h : formsClasses lists = true) (code : UInt32) :
    code ∈ listFor lists code ∧ ∀ v ∈ listFor lists code, listFor lists v = listFor lists code := by
  rcases listFor_cases lists code with ⟨payload, -, hmem, hlist⟩ | ⟨-, -, hlist⟩
  · rw [hlist]
    obtain ⟨hself, hsame⟩ := Bool.and_eq_true_iff.mp (List.all_eq_true.mp h _ hmem)
    refine ⟨List.contains_iff_mem.mp hself, fun v hv => ?_⟩
    rw [listFor, eq_of_beq (List.all_eq_true.mp hsame v hv)]
    rfl
  · rw [hlist]
    refine ⟨List.mem_singleton_self code, fun v hv => ?_⟩
    rw [List.mem_singleton.mp hv, hlist]

/-- **A distance leads to a code point without one.** -/
theorem valueIn_of_leadsOut (h : leadsOut ranges = true) {code : UInt32}
    (hne : valueIn ranges 0 code ≠ 0) :
    ∃ target : UInt32, (target.toNat : Int) = code.toNat + valueIn ranges 0 code ∧
      valueIn ranges 0 target = 0 := by
  rcases valueIn_cases ranges 0 code with ⟨r, hr, hfirst, hlast, hvalue⟩ | ⟨-, hvalue⟩
  · obtain ⟨hword, hout⟩ := Bool.and_eq_true_iff.mp (List.all_eq_true.mp h r hr)
    obtain ⟨hlow, hhigh⟩ := of_decide_eq_true hword
    have hfirst' := UInt32.le_iff_toNat_le.mp hfirst
    have hlast' := UInt32.le_iff_toNat_le.mp hlast
    rw [hvalue]
    obtain ⟨n, hn⟩ : ∃ n : Nat, (n : Int) = code.toNat + r.2.2 :=
      ⟨(code.toNat + r.2.2).toNat, Int.toNat_of_nonneg (by omega)⟩
    have htarget : (UInt32.ofNat n).toNat = n :=
      UInt32.toNat_ofNat_of_lt' (by show n < 2 ^ 32; omega)
    refine ⟨UInt32.ofNat n, by rw [htarget, hn], valueIn_of_not_mem fun t ht hin => ?_⟩
    -- the target lies between the shifted ends of its range, and no range meets these
    have hapart := of_decide_eq_true (List.all_eq_true.mp hout t ht)
    have hfrom := UInt32.le_iff_toNat_le.mp hin.1
    have hto := UInt32.le_iff_toNat_le.mp hin.2
    rw [htarget] at hfrom hto
    omega
  · exact absurd hvalue hne

end Laws

theorem foldings_foldsOnce : foldsOnce (asciiFoldings ++ specialFoldings) = true := by
  decide +kernel

theorem caseVariants_formsClasses : formsClasses caseVariantLists = true := by
  decide +kernel

theorem simpleLowercase_leadsOut : leadsOut simpleLowercaseRanges = true := by
  decide +kernel

/-! ## The functions -/

section Functions

variable {spec : Except Error Spec}

theorem get_of_provides {meaning : UInt32 → Value → Prop} (hmem : spec ∈ row)
    (h : Provides spec name meaning) (code : UInt32) : ∃ v, get name code = .ok v ∧ meaning code v := by
  obtain ⟨_, -, -, -, -, -, hget⟩ := catalog_complete
  exact hget spec name meaning hmem h code

theorem flag_of_provides {ranges : List (UInt32 × UInt32)} (hmem : spec ∈ row)
    (h : Provides spec name fun code v => v = .boolean (inRanges ranges code)) (code : UInt32) :
    flag name code = .ok (inRanges ranges code) := by
  obtain ⟨v, hv, rfl⟩ := get_of_provides hmem h code
  simp only [flag, hv]

theorem codepoints_of_provides {lists : List (UInt32 × List UInt32)} (hmem : spec ∈ row)
    (h : Provides spec name fun code v =>
      ∃ c : CodePoints, v = .codepoints c ∧ c.codes = listFor lists code) (code : UInt32) :
    ∃ c, codepoints name code = .ok c ∧ c.codes = listFor lists code := by
  obtain ⟨v, hv, c, rfl, hc⟩ := get_of_provides hmem h code
  exact ⟨c, by simp only [codepoints, hv], hc⟩

theorem asciiClass_eq (code : UInt32) :
    asciiClass code = .ok (valueIn asciiClassRanges .other code) := by
  obtain ⟨v, hv, rfl⟩ := get_of_provides (by simp [row]) asciiClass_provides code
  simp only [asciiClass, hv, AsciiClass.ofOrdinal_ordinal]

theorem simpleLowercaseDelta_eq (code : UInt32) :
    simpleLowercaseDelta code = .ok (valueIn simpleLowercaseRanges 0 code) := by
  obtain ⟨v, hv, rfl⟩ := get_of_provides (by simp [row]) simpleLowercase_provides code
  simp only [simpleLowercaseDelta, hv]

theorem fullCaseFolding_eq (code : UInt32) : ∃ folded, fullCaseFolding code = .ok folded ∧
    folded.codes = listFor (asciiFoldings ++ specialFoldings) code :=
  codepoints_of_provides (by simp [row]) fullCaseFolding_provides code

theorem caseVariants_eq (code : UInt32) : ∃ variants, caseVariants code = .ok variants ∧
    variants.codes = listFor caseVariantLists code :=
  codepoints_of_provides (by simp [row]) caseVariants_provides code

end Functions

/-- **The sample is coherent.**  All six specifications can be made and the catalog has a property for
each.  Every function gives every code point what the data say, and the default elsewhere.  The code
points that one folds to fold to themselves; a code point is one of its case variants, and all of these
have the same; and where a letter has a small one at some distance, that is a code point which has none
itself. -/
theorem coherent :
    (∃ made, specs = .ok made ∧ (Catalog.build made).failures = [] ∧
      (Catalog.build made).catalog.size = 6 ∧ catalog = .ok (Catalog.build made).catalog) ∧
    ∀ code : UInt32,
      whiteSpace code = .ok (inRanges whiteSpaceRanges code) ∧
      hexDigit code = .ok (inRanges hexDigitRanges code) ∧
      asciiClass code = .ok (valueIn asciiClassRanges .other code) ∧
      (∃ delta, simpleLowercaseDelta code = .ok delta ∧ delta = valueIn simpleLowercaseRanges 0 code ∧
        (delta ≠ 0 → ∃ small : UInt32, (small.toNat : Int) = code.toNat + delta ∧
          simpleLowercaseDelta small = .ok 0)) ∧
      (∃ folded, fullCaseFolding code = .ok folded ∧
        folded.codes = listFor (asciiFoldings ++ specialFoldings) code ∧
        ∀ v ∈ folded.codes, fullCaseFolding v = .ok (CodePoints.single v)) ∧
      ∃ variants, caseVariants code = .ok variants ∧
        variants.codes = listFor caseVariantLists code ∧
        code ∈ variants.codes ∧ ∀ v ∈ variants.codes, caseVariants v = .ok variants := by
  obtain ⟨made, hspecs, -, hnone, hsize, hcatalog, -⟩ := catalog_complete
  refine ⟨⟨made, hspecs, hnone, hsize, hcatalog⟩, fun code =>
    ⟨flag_of_provides (by simp [row]) whiteSpace_provides code,
      flag_of_provides (by simp [row]) hexDigit_provides code, asciiClass_eq code,
      ⟨_, simpleLowercaseDelta_eq code, rfl, fun hne => ?_⟩, ?_, ?_⟩⟩
  · obtain ⟨small, hsmall, hzero⟩ := valueIn_of_leadsOut simpleLowercase_leadsOut hne
    exact ⟨small, hsmall, by rw [simpleLowercaseDelta_eq, hzero]⟩
  · obtain ⟨folded, hfolded, hcodes⟩ := fullCaseFolding_eq code
    refine ⟨folded, hfolded, hcodes, fun v hv => ?_⟩
    obtain ⟨again, hagain, hsame⟩ := fullCaseFolding_eq v
    rw [hcodes] at hv
    rw [listFor_of_foldsOnce foldings_foldsOnce hv] at hsame
    rw [hagain, CodeList.eq_of_codes (b := CodePoints.single v) hsame]
  · obtain ⟨variants, hvariants, hcodes⟩ := caseVariants_eq code
    obtain ⟨hself, hclasses⟩ := listFor_of_formsClasses caseVariants_formsClasses code
    refine ⟨variants, hvariants, hcodes, by rwa [hcodes], fun v hv => ?_⟩
    obtain ⟨others, hothers, hsame⟩ := caseVariants_eq v
    rw [hcodes] at hv
    rw [hclasses v hv, ← hcodes] at hsame
    rw [hothers, CodeList.eq_of_codes hsame]

end Sample

end Multistage
