import Multistage.Proofs.RangeRecovery

/-!
# Building again from the ranges of a table

A build depends on the default and the values of its range map, not on how the ranges were cut.  The
ranges of a table give its values back, so a table can be built again from them.

* `build_congr` — range maps with the same default and values have the same build.
* `get_recovered` — the ranges of a built table, with the default, are the range map it came from.
* `build_canonical` — both together, and the change to another split of the key.
-/

namespace Multistage

namespace Compilation

variable {layout : Layout} {map map' : RangeMap} {made : Compilation}

theorem table_get (h : build layout map = .ok made) (code : UInt32) :
    made.table.get code = map.get code := by
  obtain ⟨hd, -, hlayout, -, -, hdefault⟩ := build_parts h
  by_cases hc : code.toNat < 2 ^ layout.keyBits
  · rw [made.table.get_of_lt (hlayout ▸ hc), find?_build h hc, Option.getD_some]
  · have hdomain : 2 ^ layout.domainBits ≤ 2 ^ layout.keyBits :=
      Nat.pow_le_pow_right (by omega) layout.domain_le_total
    rw [made.table.get_of_le (hlayout ▸ Nat.not_lt.mp hc), hdefault,
      map.get_eq_default hd (by omega)]

theorem dense_congr (layout : Layout) (hget : ∀ code, map'.get code = map.get code) :
    map'.dense layout.keyBits = map.dense layout.keyBits := by
  apply Array.ext_getElem?
  intro key
  by_cases hkey : key < 2 ^ layout.keyBits
  · rw [getElem?_dense_key layout map' hkey, getElem?_dense_key layout map hkey, hget]
  · have hsize (m : RangeMap) : (m.dense layout.keyBits).size ≤ key := by
      rw [size_dense_key]
      exact Nat.not_lt.mp hkey
    rw [Array.getElem?_eq_none (hsize map'), Array.getElem?_eq_none (hsize map)]

/-- **A build depends on the default and the values only**, once both range maps are accepted. -/
theorem build_congr (h : build layout map = .ok made)
    (hd : map'.requireDomain layout.domainBits = .ok ())
    (hw : map'.requireWidth layout.width = .ok ()) (hdefault : map'.default = map.default)
    (hget : ∀ code, map'.get code = map.get code) : build layout map' = .ok made := by
  obtain ⟨hd', hw', -⟩ := build_parts h
  rw [← h]
  unfold build
  rw [hd, hw, hd', hw', dense_congr layout hget, hdefault]

/-- **The ranges of a built table are the range map it came from**, wherever that map had cut its
ranges.  Past the domain no range is left, and the default stands on both sides. -/
theorem get_recovered (h : build layout map = .ok made) (code : UInt32) :
    (made.table.toMap map.default).get code = map.get code := by
  obtain ⟨hd, -, hlayout, -⟩ := build_parts h
  by_cases hc : code.toNat < 2 ^ layout.domainBits
  · rw [made.table.get_toMap map.default (hlayout ▸ hc), table_get h]
  · have hd' := made.table.requireDomain_toMap map.default
    rw [hlayout] at hd'
    rw [map.get_eq_default hd (Nat.not_lt.mp hc),
      (made.table.toMap map.default).get_eq_default hd' (Nat.not_lt.mp hc)]
    rfl

theorem recovered_accepted (h : build layout map = .ok made) {layout' : Layout}
    (hdomain : layout'.domainBits = layout.domainBits) (hwidth : layout'.width = layout.width) :
    (made.table.toMap map.default).requireDomain layout'.domainBits = .ok () ∧
      (made.table.toMap map.default).requireWidth layout'.width = .ok () := by
  obtain ⟨-, hw, hlayout, -⟩ := build_parts h
  rw [hdomain, hwidth, ← hlayout]
  refine ⟨made.table.requireDomain_toMap _, made.table.requireWidth_toMap ?_⟩
  rw [hlayout]
  exact ((map.requireWidth_eq_ok _).mp hw).2

/-- **Builds are canonical and can be repeated from the table.**  Range maps with the same default and
the same values give the same table and the same statistics.  The ranges of the table, with that
default, are accepted as a range map; its build under the same layout is the same table with the same
statistics, and under another split of a key for the same domain, width and packing it is a table that
gives every code point the same value. -/
theorem build_canonical (h : build layout map = .ok made) :
    (∀ (map' : RangeMap) (made' : Compilation), map'.default = map.default →
      (∀ code, map'.get code = map.get code) → build layout map' = .ok made' → made' = made) ∧
    ∃ again, RangeMap.ofRanges made.table.ranges map.default = .ok again ∧
      build layout again = .ok made ∧
      ∀ layout' : Layout, layout'.domainBits = layout.domainBits → layout'.width = layout.width →
        layout'.packed = layout.packed → ∃ made', build layout' again = .ok made' ∧
          ∀ code, made'.table.get code = made.table.get code := by
  constructor
  · intro map' made' hdefault hget h'
    obtain ⟨hd, hw, -⟩ := build_parts h'
    have hsame := build_congr h hd hw hdefault hget
    rw [h', Except.ok.injEq] at hsame
    exact hsame
  refine ⟨made.table.toMap map.default, made.table.ofRanges_ranges _, ?_, ?_⟩
  · obtain ⟨hd, hw⟩ := recovered_accepted h rfl rfl
    exact build_congr h hd hw rfl (get_recovered h)
  · intro layout' hdomain hwidth _
    obtain ⟨made', h'⟩ :=
      (build_eq_ok_iff layout' (made.table.toMap map.default)).mpr
        (recovered_accepted h hdomain hwidth)
    refine ⟨made', h', fun code => ?_⟩
    rw [table_get h', get_recovered h, table_get h]

/-- A range cut in two and a default written out change nothing; a key of seven bits for a domain of
six, then one of six split in two. -/
theorem build_canonical_padded :
    ∃ layout layout' map map' made, Layout.ofLevels 6 [2, 2, 3] .four true = .ok layout ∧
      Layout.ofLevels 6 [3, 3] .four true = .ok layout' ∧
      RangeMap.ofRanges [⟨5, 5, 1⟩, ⟨17, 40, 2⟩, ⟨63, 63, 3⟩] 9 = .ok map ∧
      RangeMap.ofRanges [⟨5, 5, 1⟩, ⟨6, 16, 9⟩, ⟨17, 20, 2⟩, ⟨21, 40, 2⟩, ⟨63, 63, 3⟩] 9 =
        .ok map' ∧
      build layout map = .ok made ∧ build layout map' = .ok made ∧
      ∃ again made', RangeMap.ofRanges made.table.ranges 9 = .ok again ∧
        build layout again = .ok made ∧ build layout' again = .ok made' ∧
        ∀ code, made'.table.get code = made.table.get code := by
  let layout : Layout := ⟨6, [2, 2, 3], .four, true, by decide, by decide, by decide, by decide,
    by decide, by decide, by decide, by decide⟩
  let layout' : Layout := ⟨6, [3, 3], .four, true, by decide, by decide, by decide, by decide,
    by decide, by decide, by decide, by decide⟩
  let map : RangeMap := ⟨[⟨5, 5, 1⟩, ⟨17, 40, 2⟩, ⟨63, 63, 3⟩], 9, by decide, by decide⟩
  let map' : RangeMap := ⟨[⟨5, 5, 1⟩, ⟨6, 16, 9⟩, ⟨17, 20, 2⟩, ⟨21, 40, 2⟩, ⟨63, 63, 3⟩], 9,
    by decide, by decide⟩
  obtain ⟨made, h⟩ := (build_eq_ok_iff layout map).mpr ⟨rfl, rfl⟩
  obtain ⟨made', h'⟩ := (build_eq_ok_iff layout map').mpr ⟨rfl, rfl⟩
  have hget (code : UInt32) : map'.get code = map.get code := by
    by_cases hc : code.toNat < 2 ^ 6
    · have hinside : ∀ key < 2 ^ 6, map'.get (UInt32.ofNat key) = map.get (UInt32.ofNat key) := by
        decide
      simpa using hinside code.toNat hc
    · have hpast : 2 ^ 6 ≤ code.toNat := Nat.not_lt.mp hc
      rw [map'.get_eq_default rfl hpast, map.get_eq_default rfl hpast]
  obtain ⟨hunique, again, hagain, hrebuild, hsplit⟩ := build_canonical h
  obtain ⟨other, hother, hvalues⟩ := hsplit layout' rfl rfl rfl
  obtain rfl : made' = made := hunique map' made' rfl hget h'
  exact ⟨layout, layout', map, map', made', rfl, rfl, rfl, rfl, h, h', again, other, hagain, hrebuild,
    hother, hvalues⟩

end Compilation

end Multistage
