import Multistage.Proofs.Rebuild

/-!
# Code points outside the domain

The levels of a layout may have more keys than the domain has code points; the keys past the domain are
padding.  A lookup compares with the number of keys, and the check of a table does not know the domain
at all, so data that are read decide for themselves what padding leads to.

* `Layout.wholeKey` — the same levels with all keys in the domain.
* `Table.exists_get_ne_default` — any key can have another value than the default.
* `Table.get_outside_domain` — what a table that was read gives outside its domain.
* `Table.get_padding_ne_default` — padding that leads to a value of the domain.
-/

namespace Multistage

namespace Layout

/-- The layout with all keys in the domain. -/
def wholeKey (l : Layout) : Layout :=
  { l with
    domainBits := l.keyBits
    domain_pos := Nat.lt_of_lt_of_le l.domain_pos l.domain_le_total
    domain_le := l.total_le
    domain_le_total := Nat.le_refl _ }

@[simp] theorem wholeKey_domainBits (l : Layout) : l.wholeKey.domainBits = l.keyBits :=
  rfl

@[simp] theorem wholeKey_width (l : Layout) : l.wholeKey.width = l.width :=
  rfl

end Layout

namespace Table

/-- **The check does not know the domain.** -/
theorem check_wholeKey (l : Layout) (stages : List Stage) (leaf : Leaf) (default : UInt32) :
    check l.wholeKey stages leaf default = check l stages leaf default :=
  rfl

/-- The table with some of its keys declared to be padding: lookups stay as they are. -/
theorem exists_of_wholeKey {l : Layout} {t : Table} (h : t.layout = l.wholeKey) :
    ∃ t' : Table, t'.layout = l ∧ t'.default = t.default ∧ ∀ code, t'.get code = t.get code := by
  have hchecked : check l t.stages t.leaf t.default = .ok () := by
    rw [← check_wholeKey, ← h, t.checked]
  refine ⟨⟨l, t.stages, t.leaf, t.default, hchecked⟩, rfl, rfl, fun code => ?_⟩
  unfold get route
  rw [h]
  rfl

/-- **Any key can have another value than the default**: write a one for it over zeros. -/
theorem exists_get_ne_default (l : Layout) {code : UInt32} (h : code.toNat < 2 ^ l.keyBits) :
    ∃ t : Table, t.layout = l ∧ t.get code ≠ t.default := by
  let map : RangeMap := ⟨[⟨code, code, 1⟩], 0, by simp, by simp⟩
  have hone (w : Width) : w.fits 1 = true ∧ w.fits 0 = true := by
    cases w <;> decide
  have hd : map.requireDomain l.wholeKey.domainBits = .ok () := by
    rw [RangeMap.requireDomain_eq_ok _ l.wholeKey.domainBits_lt_word]
    simpa [map] using h
  have hw : map.requireWidth l.wholeKey.width = .ok () := by
    rw [RangeMap.requireWidth_eq_ok]
    simpa [map] using hone l.width
  obtain ⟨made, hmade⟩ := (Compilation.build_eq_ok_iff l.wholeKey map).mpr ⟨hd, hw⟩
  obtain ⟨-, -, hlayout, -, -, hdefault⟩ := Compilation.build_parts hmade
  obtain ⟨t, ht, htdefault, hget⟩ := exists_of_wholeKey hlayout
  have hvalue : map.get code = 1 :=
    map.get_of_contains (r := ⟨code, code, 1⟩) (by simp [map]) (by simp)
  refine ⟨t, ht, ?_⟩
  rw [hget, Compilation.table_get hmade, hvalue, htdefault, hdefault]
  exact (by decide : (1 : UInt32) ≠ 0)

/-- **Outside the domain.**  Take a code point past the domain of a layout.  Past the key it gets the
default from every table of the layout that was read.  As a key it gets the value of the cell that it
leads to, and there are data whose table gives it another value than the default.  A table that was
built gives it the default, also after it was read back from a stream. -/
theorem get_outside_domain (l : Layout) {code : UInt32} (h : 2 ^ l.domainBits ≤ code.toNat) :
    (2 ^ l.keyBits ≤ code.toNat → ∀ bytes rest t, decode bytes = .ok (t, rest) → t.layout = l →
      t.get code = t.default) ∧
    (code.toNat < 2 ^ l.keyBits →
      (∀ bytes rest t, decode bytes = .ok (t, rest) → t.layout = l →
        t.route.find? code.toNat = some (t.get code)) ∧
      ∃ bytes t, decode bytes = .ok (t, []) ∧ t.layout = l ∧ t.get code ≠ t.default) ∧
    ∀ map made, Compilation.build l map = .ok made → ∀ rest, ∃ t,
      decode (made.table.encode ++ rest) = .ok (t, rest) ∧ t.layout = l ∧
        t.default = map.default ∧ t.get code = t.default := by
  refine ⟨?_, fun hkey => ⟨?_, ?_⟩, ?_⟩
  · rintro hpast bytes rest t - rfl
    exact t.get_of_le hpast
  · rintro bytes rest t - rfl
    obtain ⟨value, hvalue, -⟩ := t.find?_route hkey
    rw [t.get_of_lt hkey, hvalue, Option.getD_some]
  · obtain ⟨t, ht, hne⟩ := exists_get_ne_default l hkey
    have hread := t.reads_decode []
    rw [List.append_nil] at hread
    exact ⟨_, t, hread, ht, hne⟩
  · intro map made hmade rest
    obtain ⟨hd, -, hlayout, -, -, hdefault⟩ := Compilation.build_parts hmade
    refine ⟨made.table, made.table.reads_decode rest, hlayout, hdefault, ?_⟩
    rw [Compilation.table_get hmade, map.get_eq_default hd h, hdefault]

/-- Four code points with eight keys: the default for the padding that is a key follows from no check,
the default past the key follows for all data. -/
theorem get_outside_domain_padded : ∃ l, Layout.ofLevels 2 [2, 1] .eight false = .ok l ∧
    (∃ bytes t, decode bytes = .ok (t, []) ∧ t.layout = l ∧ t.get 4 ≠ t.default) ∧
    ∀ bytes rest t, decode bytes = .ok (t, rest) → t.layout = l → t.get 8 = t.default := by
  refine ⟨_, rfl, ?_, ?_⟩
  · exact ((get_outside_domain _ (by decide)).2.1 (by decide)).2
  · exact (get_outside_domain _ (by decide)).1 (by decide)

/-- **Padding can lead to a value of the domain**: the third block of the upper level is the second
again, and the code point after the domain gets the value of a code point in it. -/
theorem get_padding_ne_default : ∃ t,
    decode [0x43, 0x50, 0x54, 0x52, 1, 0, 2, 2, 2, 1, 8, 0, 0, 0, 0, 0, 4, 0, 0, 0, 1, 0, 1, 1, 0,
        4, 0, 0, 0, 0, 0, 5, 5] = .ok (t, []) ∧
      2 ^ t.layout.domainBits ≤ (4 : UInt32).toNat ∧ t.get 4 ≠ t.default := by
  let l : Layout := ⟨2, [2, 1], .eight, false, by decide, by decide, by decide, by decide, by decide,
    by decide, by decide, by decide⟩
  let t : Table := ⟨l, [⟨2, #[0, 1, 1, 0]⟩], ⟨1, .eight, .plain #[0, 0, 5, 5]⟩, 0, by decide +kernel⟩
  have hbytes : t.encode = [0x43, 0x50, 0x54, 0x52, 1, 0, 2, 2, 2, 1, 8, 0, 0, 0, 0, 0, 4, 0, 0, 0,
      1, 0, 1, 1, 0, 4, 0, 0, 0, 0, 0, 5, 5] := by
    decide +kernel
  have hread := t.reads_decode []
  rw [List.append_nil, hbytes] at hread
  exact ⟨t, hread, by decide, by decide +kernel⟩

end Table

end Multistage
