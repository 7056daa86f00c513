import Multistage.Proofs.DeltaWords
import Multistage.Proofs.SpecOutcome

/-!
# Properties made of signed distances

`Spec.ofDeltas` encodes the distance of each range, and zero stands where there is no range.  Encoding
loses nothing, and a table keeps the words as they are, so the property gives back the distances.

* `Spec.deltaRange` — the range with the word of its distance.
* `Spec.ofDeltas_eq_ok` — the specification, if every distance has room.
* `Spec.deltas_exact` — distances, their words, and what the property gives.
-/

namespace Multistage.Spec

/-- The range with the word of its distance. -/
def deltaRange (w : Width) (r : UInt32 × UInt32 × Int) : CodeRange :=
  ⟨r.1, r.2.1, Delta.word r.2.2 w⟩

variable {name : String} {w : Width} {ranges : List (UInt32 × UInt32 × Int)}

theorem deltaRanges_eq_ok : ∀ {ranges : List (UInt32 × UInt32 × Int)},
    (∀ r ∈ ranges, Delta.HasRoom r.2.2 w) →
    deltaRanges w ranges = .ok (ranges.map (deltaRange w))
  | [], _ => rfl
  | (first, last, delta) :: rest, h => by
    have hfirst : Delta.encode delta w = .ok (Delta.word delta w) :=
      Delta.encode_eq_ok.mpr ⟨h (first, last, delta) (by simp), rfl⟩
    have hrest := deltaRanges_eq_ok fun r hr => h r (List.mem_cons_of_mem _ hr)
    simp only [deltaRanges, hfirst, hrest]
    rfl

/-- **Distances make a specification** if they have room and their ranges are in order. -/
theorem ofDeltas_eq_ok (name : String) (hle : ∀ r ∈ ranges, r.1 ≤ r.2.1)
    (hsep : ranges.Pairwise fun a b => a.2.1 < b.1)
    (hroom : ∀ r ∈ ranges, Delta.HasRoom r.2.2 w) :
    ∃ map : RangeMap, map.ranges = ranges.map (deltaRange w) ∧ map.default = 0 ∧
      ofDeltas name w ranges = .ok { name, kind := .signedDelta, width := w, map } := by
  have hmap : ∃ map, RangeMap.ofRanges (ranges.map (deltaRange w)) 0 = .ok map := by
    refine (RangeMap.exists_ofRanges _ _).mpr ⟨fun c hc => ?_, List.pairwise_map.mpr hsep⟩
    obtain ⟨r, hr, rfl⟩ := List.mem_map.mp hc
    exact hle r hr
  obtain ⟨map, hmap⟩ := hmap
  obtain ⟨hranges, hdefault⟩ := RangeMap.ofRanges_eq_ok.mp hmap
  refine ⟨map, hranges, hdefault, ?_⟩
  simp only [ofDeltas, deltaRanges_eq_ok hroom, hmap]

theorem decode_get_of_mem {map : RangeMap} (hranges : map.ranges = ranges.map (deltaRange w))
    (hroom : ∀ r ∈ ranges, Delta.HasRoom r.2.2 w) {first last code : UInt32} {delta : Int}
    (hr : (first, last, delta) ∈ ranges) (hfirst : first ≤ code) (hlast : code ≤ last) :
    Delta.decode (map.get code) w = delta := by
  have hmem : deltaRange w (first, last, delta) ∈ map.ranges := by
    rw [hranges]
    exact List.mem_map_of_mem hr
  have hin : (deltaRange w (first, last, delta)).contains code = true :=
    (CodeRange.contains_iff _ _).mpr ⟨hfirst, hlast⟩
  rw [map.get_of_contains hmem hin]
  exact Delta.decode_word (hroom _ hr)

theorem decode_get_of_not_mem {map : RangeMap} (hranges : map.ranges = ranges.map (deltaRange w))
    (hdefault : map.default = 0) {code : UInt32}
    (hnone : ∀ r ∈ ranges, ¬ (r.1 ≤ code ∧ code ≤ r.2.1)) : Delta.decode (map.get code) w = 0 := by
  have hout : ∀ c ∈ map.ranges, ¬ c.contains code = true := by
    intro c hc hin
    rw [hranges] at hc
    obtain ⟨r, hr, rfl⟩ := List.mem_map.mp hc
    exact hnone r hr ((CodeRange.contains_iff _ _).mp hin)
  rw [map.get_of_not_contains hout, hdefault]
  cases w <;> rfl

theorem build_delta {s : Spec} {p : Property} (hkind : s.kind = .signedDelta) (h : s.build = .ok p)
    (code : UInt32) : p.get code = .signedDelta (Delta.decode (s.map.get code) s.width) := by
  obtain ⟨hsame, -, hwidth, hstored⟩ := build_stored h
  unfold Property.get
  rw [hsame, hkind, hstored, hwidth]

/-- **Signed distances from end to end.**  A distance has a word of a width exactly if it lies between
the two halves of its words; the word has room in the width, is what masking leaves of the distance, and
stands for that distance; and every word that has room in the width is the word of the distance that it
stands for, which two shifts find.  Ranges in order with distances that have room make a specification;
once its property is made, however it is packed and split, it gives each code point in a range the
distance of that range, and any other one zero. -/
theorem deltas_exact :
    (∀ (w : Width) (delta : Int),
      ((∃ v, Delta.encode delta w = .ok v) ↔
        -2 ^ (w.bits - 1) ≤ delta ∧ delta < 2 ^ (w.bits - 1)) ∧
      ∀ v, Delta.encode delta w = .ok v →
        w.fits v = true ∧ v = UInt32.ofInt delta &&& allOnes w.bits ∧ Delta.decode v w = delta) ∧
    (∀ (w : Width) (v : UInt32), Delta.decode v w =
        ((v <<< UInt32.ofNat (32 - w.bits)).toBitVec.sshiftRight (32 - w.bits)).toInt ∧
      (w.fits v = true → Delta.encode (Delta.decode v w) w = .ok v)) ∧
    ∀ (name : String) (w : Width) (ranges : List (UInt32 × UInt32 × Int)),
      (∀ r ∈ ranges, r.1 ≤ r.2.1) → (ranges.Pairwise fun a b => a.2.1 < b.1) →
      (∀ r ∈ ranges, -2 ^ (w.bits - 1) ≤ r.2.2 ∧ r.2.2 < 2 ^ (w.bits - 1)) →
      ∃ s, ofDeltas name w ranges = .ok s ∧
        ∀ (packed : Bool) (domainBits : Nat) (split : SplitRule) (p : Property),
          build { s with packed, domainBits, split } = .ok p → ∀ code,
            (∀ first last delta, (first, last, delta) ∈ ranges → first ≤ code → code ≤ last →
              p.get code = .signedDelta delta) ∧
            ((∀ r ∈ ranges, ¬ (r.1 ≤ code ∧ code ≤ r.2.1)) → p.get code = .signedDelta 0) := by
  refine ⟨fun w delta => ⟨?_, fun v hv => ?_⟩, fun w v => ⟨Delta.decode_eq_shift v w, fun hv => ?_⟩, ?_⟩
  · simp only [Delta.encode_eq_ok]
    exact ⟨fun ⟨_, h, _⟩ => h, fun h => ⟨_, h, rfl⟩⟩
  · obtain ⟨hroom, rfl⟩ := Delta.encode_eq_ok.mp hv
    exact ⟨Delta.fits_word delta w, Delta.word_eq_and delta w, Delta.decode_word hroom⟩
  · exact Delta.encode_eq_ok.mpr ⟨Delta.hasRoom_decode hv, (Delta.word_decode hv).symm⟩
  · intro name w ranges hle hsep hroom
    obtain ⟨map, hranges, hdefault, hs⟩ := ofDeltas_eq_ok name hle hsep hroom
    refine ⟨_, hs, fun packed domainBits split p hp code => ?_⟩
    have hget := build_delta rfl hp code
    constructor
    · intro first last delta hr hfirst hlast
      rw [hget, decode_get_of_mem hranges hroom hr hfirst hlast]
    · intro hnone
      rw [hget, decode_get_of_not_mem hranges hdefault hnone]

/-- A negative distance and a positive one in packed words of four bits, the least and the greatest
that have room. -/
theorem deltas_exact_packed :
    ∃ s p, ofDeltas "Shift" .four [(1, 1, -8), (3, 4, 7)] = .ok s ∧
      build { s with packed := true, domainBits := 3, split := .fixed [2, 1] } = .ok p ∧
      p.get 1 = .signedDelta (-8) ∧ p.get 4 = .signedDelta 7 ∧ p.get 2 = .signedDelta 0 ∧
      Delta.encode (-8) .four = .ok 8 ∧ ¬ ∃ v, Delta.encode 8 .four = .ok v := by
  have hle : ∀ r ∈ [((1 : UInt32), (1 : UInt32), (-8 : Int)), (3, 4, 7)], r.1 ≤ r.2.1 := by decide
  have hsep : [((1 : UInt32), (1 : UInt32), (-8 : Int)), (3, 4, 7)].Pairwise
      fun a b => a.2.1 < b.1 := by decide
  have hroom : ∀ r ∈ [((1 : UInt32), (1 : UInt32), (-8 : Int)), (3, 4, 7)],
      -2 ^ (Width.four.bits - 1) ≤ r.2.2 ∧ r.2.2 < 2 ^ (Width.four.bits - 1) := by decide
  obtain ⟨hencode, hdecode, hproperty⟩ := deltas_exact
  obtain ⟨s, hs, hget⟩ := hproperty "Shift" .four _ hle hsep hroom
  obtain ⟨map, hranges, hdefault, hs'⟩ := ofDeltas_eq_ok "Shift" hle hsep hroom
  have hd : map.requireDomain 3 = .ok () := by
    rw [RangeMap.requireDomain_eq_ok _ (by decide), hranges]
    decide
  have hw : map.requireWidth .four = .ok () := by
    rw [RangeMap.requireWidth_eq_ok, hranges, hdefault]
    decide
  rw [hs'] at hs
  cases hs
  let layout : Layout := ⟨3, [2, 1], .four, true, by decide, by decide, by decide, by decide,
    by decide, by decide, by decide, by decide⟩
  let s : Spec := { name := "Shift", kind := .signedDelta, width := .four, map, packed := true,
                    domainBits := 3, split := .fixed [2, 1] }
  obtain ⟨made, hmade⟩ := exists_compile_fixed (s := s) rfl layout.ofLevels_self hd hw
  let p : Property := ⟨"Shift", .signedDelta, made.table, none, made.report, by decide, rfl, by simp⟩
  have hp : s.build = .ok p := build_eq_ok.mpr ⟨made, made.log, hmade, p.ofParts_self⟩
  have hvalues := hget true 3 (.fixed [2, 1]) p hp
  refine ⟨_, p, hs', hp, (hvalues 1).1 1 1 _ (by decide) (by decide) (by decide),
    (hvalues 4).1 3 4 _ (by decide) (by decide) (by decide), (hvalues 2).2 (by decide),
    (hdecode .four 8).2 (by decide), ?_⟩
  rw [(hencode .four 8).1]
  decide

end Multistage.Spec
