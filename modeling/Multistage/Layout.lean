import Multistage.Width

/-!
# Layouts

A layout says how the key of a code point is cut into fields, one for each level from the top to the
leaves, how wide the values are, and whether leaves are packed.  The levels cover the domain; they
may cover more, and the keys past the domain are padding.

* `Layout.ofLevels` — the layout with the given parts, if they make sense.
* `Layout.standard` — the same for the standard domain of code points.
* `Layout.keyBits`, `Layout.bitsBelow`, `Layout.leafBits` — widths derived from the levels.
-/

namespace Multistage

/-- The widest key: a table for it is written out in full while it is built. -/
def maxKeyBits : Nat := 24

/-- How many values share a cell of the leaves. -/
def cellCapacity (width : Width) (packed : Bool) : Nat :=
  if packed then 8 / width.bits else 1

structure Layout where
  /-- The domain is the set of keys below `2 ^ domainBits`. -/
  domainBits : Nat
  /-- Widths of the levels, from the top to the leaves. -/
  levels : List Nat
  /-- Width of the values. -/
  width : Width
  /-- Leaves hold several values to a byte. -/
  packed : Bool
  domain_pos : 0 < domainBits
  domain_le : domainBits ≤ maxKeyBits
  levels_ne_nil : levels ≠ []
  levels_pos : ∀ bits ∈ levels, 0 < bits
  domain_le_total : domainBits ≤ levels.sum
  total_le : levels.sum ≤ maxKeyBits
  packable : packed = true → width.packable = true
  byte_le_leaf : packed = true → cellCapacity width packed ≤ 2 ^ levels.getLast levels_ne_nil
  deriving DecidableEq

namespace Layout

/-- The layout with the given parts.  Checked in this order: the width of the domain, that there are
levels, that none is empty, that they cover the domain, that they are not too wide, that values of
the width can be packed, that a packed block of leaves fills whole bytes. -/
def ofLevels (domainBits : Nat) (levels : List Nat) (width : Width) (packed : Bool) :
    Except Error Layout :=
  if h₁ : domainBits = 0 ∨ maxKeyBits < domainBits then
    .error (.config (.domainWidth domainBits maxKeyBits))
  else if h₂ : levels = [] then
    .error (.config .noLevels)
  else if h₃ : 0 ∈ levels then
    .error (.config (.emptyLevel levels))
  else if h₄ : levels.sum < domainBits then
    .error (.config (.levelsTooNarrow levels domainBits))
  else if h₅ : maxKeyBits < levels.sum then
    .error (.config (.levelsTooWide levels maxKeyBits))
  else if h₆ : packed = true ∧ width.packable = false then
    .error (.config (.unpackable width.bits))
  else if h₇ : packed = true ∧ 2 ^ levels.getLast h₂ < cellCapacity width packed then
    .error (.config (.leafBelowByte (levels.getLast h₂) (cellCapacity width packed)))
  else
    .ok {
      domainBits, levels, width, packed
      domain_pos := by omega
      domain_le := by omega
      levels_ne_nil := h₂
      levels_pos := fun bits h => Nat.pos_of_ne_zero fun h0 => h₃ (h0 ▸ h)
      domain_le_total := by omega
      total_le := by omega
      packable := fun h => by
        cases hp : width.packable with
        | true => rfl
        | false => exact absurd ⟨h, hp⟩ h₆
      byte_le_leaf := fun h => Nat.not_lt.mp fun hl => h₇ ⟨h, hl⟩ }

/-- The layout of a table over the standard domain. -/
def standard (levels : List Nat) (width : Width) (packed : Bool) : Except Error Layout :=
  ofLevels CodePoint.standardBits levels width packed

/-- Number of levels, the leaves included. -/
def depth (l : Layout) : Nat :=
  l.levels.length

/-- Width of the whole key. -/
def keyBits (l : Layout) : Nat :=
  l.levels.sum

/-- Number of key bits below a level. -/
def bitsBelow (l : Layout) (level : Nat) : Nat :=
  (l.levels.drop (level + 1)).sum

/-- Number of the level that holds the values. -/
def stageCount (l : Layout) : Nat :=
  l.depth - 1

/-- Width of the level that holds the values. -/
def leafBits (l : Layout) : Nat :=
  l.levels.getLast l.levels_ne_nil

/-- Widths of the levels above the leaves. -/
def stageBits (l : Layout) : List Nat :=
  l.levels.dropLast

/-- Number of values in a block of leaves. -/
def leafBlockSize (l : Layout) : Nat :=
  2 ^ l.leafBits

/-- How many values share a cell of the leaves. -/
def cellCapacity (l : Layout) : Nat :=
  Multistage.cellCapacity l.width l.packed

theorem stageBits_append (l : Layout) : l.stageBits ++ [l.leafBits] = l.levels :=
  List.dropLast_concat_getLast l.levels_ne_nil

end Layout

end Multistage
