import Multistage.Layout
import Mathlib.Algebra.Order.BigOperators.Group.List
import Mathlib.Algebra.Order.Group.Nat

/-!
# Facts about layouts

What the fields of a layout say about its levels, and that `Layout.ofLevels` accepts exactly the parts
of layouts.

* `ofLevels_self`, `ofLevels_eq_ok` — a layout is made from its own parts, and from no others.
-/

namespace Multistage.Layout

theorem ofLevels_self (l : Layout) : ofLevels l.domainBits l.levels l.width l.packed = .ok l := by
  have h₁ : ¬ (l.domainBits = 0 ∨ maxKeyBits < l.domainBits) := by
    have := l.domain_pos
    have := l.domain_le
    omega
  have h₃ : 0 ∉ l.levels := fun h => Nat.lt_irrefl 0 (l.levels_pos 0 h)
  have h₆ : ¬ (l.packed = true ∧ l.width.packable = false) := by
    rintro ⟨hp, hk⟩
    rw [l.packable hp] at hk
    cases hk
  have h₇ : ¬ (l.packed = true ∧
      2 ^ l.levels.getLast l.levels_ne_nil < Multistage.cellCapacity l.width l.packed) := by
    rintro ⟨hp, hlt⟩
    exact absurd (l.byte_le_leaf hp) (Nat.not_le.mpr hlt)
  unfold ofLevels
  rw [dif_neg h₁, dif_neg l.levels_ne_nil, dif_neg h₃, dif_neg (Nat.not_lt.mpr l.domain_le_total),
    dif_neg (Nat.not_lt.mpr l.total_le), dif_neg h₆, dif_neg h₇]

theorem ofLevels_eq_ok {domainBits : Nat} {levels : List Nat} {width : Width} {packed : Bool}
    {l : Layout} (h : ofLevels domainBits levels width packed = .ok l) :
    l.domainBits = domainBits ∧ l.levels = levels ∧ l.width = width ∧ l.packed = packed := by
  unfold ofLevels at h
  split at h
  · cases h
  split at h
  · cases h
  split at h
  · cases h
  split at h
  · cases h
  split at h
  · cases h
  split at h
  · cases h
  split at h
  · cases h
  cases h
  exact ⟨rfl, rfl, rfl, rfl⟩

/-! ## Levels -/

theorem depth_eq (l : Layout) : l.depth = l.stageCount + 1 := by
  have := List.length_pos_iff.mpr l.levels_ne_nil
  unfold stageCount depth
  omega

theorem lt_depth_iff (l : Layout) {level : Nat} : level < l.depth ↔ level ≤ l.stageCount := by
  rw [l.depth_eq, Nat.lt_succ_iff]

theorem length_stageBits (l : Layout) : l.stageBits.length = l.stageCount := by
  simp [stageBits, stageCount, depth]

theorem getElem?_levels_stageCount (l : Layout) : l.levels[l.stageCount]? = some l.leafBits := by
  rw [← l.stageBits_append, ← l.length_stageBits, List.getElem?_concat_length]

theorem level_lt {l : Layout} {bits : Nat} (h : bits ∈ l.levels) : bits < 32 := by
  have hle := List.le_sum_of_mem h
  have := l.total_le
  unfold maxKeyBits at this
  omega

theorem keyBits_lt (l : Layout) : l.keyBits < 32 := by
  have := l.total_le
  unfold maxKeyBits at this
  unfold keyBits
  omega

theorem keyBits_lt_word (l : Layout) : l.keyBits < 64 :=
  Nat.lt_trans l.keyBits_lt (by decide)

theorem toNat_key (l : Layout) {key : Nat} (h : key < 2 ^ l.keyBits) :
    (UInt32.ofNat key).toNat = key := by
  have hle : 2 ^ l.keyBits ≤ 2 ^ 24 := Nat.pow_le_pow_right (by omega) l.total_le
  apply UInt32.toNat_ofNat_of_lt'
  simp only [UInt32.size]
  omega

theorem domainBits_lt_word (l : Layout) : l.domainBits < 64 :=
  Nat.lt_of_le_of_lt l.domain_le (by decide)

theorem keyBits_eq_add (l : Layout) : l.keyBits = l.stageBits.sum + l.leafBits := by
  rw [keyBits, ← l.stageBits_append, List.sum_append, List.sum_singleton]

theorem leafBits_le_keyBits (l : Layout) : l.leafBits ≤ l.keyBits :=
  List.le_sum_of_mem (List.getLast_mem l.levels_ne_nil)

theorem depth_le_keyBits (l : Layout) : l.depth ≤ l.keyBits :=
  List.length_le_sum_of_one_le l.levels l.levels_pos

end Multistage.Layout
