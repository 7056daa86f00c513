import Multistage.Layout

/-!
# Range maps

A range map gives every code point a value: the value of the range that contains it, or else a
default.  Its ranges are not inverted, and each starts after the one before it has ended.

* `RangeMap.ofRanges` — the map with the given ranges, if they are in order.
* `RangeMap.get` — the value of a code point.
* `RangeMap.dense`, `RangeMap.dense?` — the values of all keys of a given width, as an array, and as one
  that can be had.
* `RangeMap.requireDomain`, `RangeMap.requireWidth` — ranges inside a domain, values inside a width.
-/

namespace Multistage

/-- The first neighbours of which the second does not start after the end of the first. -/
def misplaced? : List CodeRange → Option (CodeRange × CodeRange)
  | a :: b :: rest => if b.first ≤ a.last then some (a, b) else misplaced? (b :: rest)
  | _ => none

theorem pairwise_of_misplaced?_eq_none : ∀ {ranges : List CodeRange},
    (∀ r ∈ ranges, r.first ≤ r.last) → misplaced? ranges = none →
    ranges.Pairwise fun a b => a.last < b.first
  | [], _, _ => .nil
  | [_], _, _ => List.pairwise_singleton ..
  | a :: b :: rest, ordered, h => by
    have hab : a.last < b.first := by
      apply UInt32.not_le.mp
      intro hle
      simp [misplaced?, hle] at h
    have h' : misplaced? (b :: rest) = none := by
      simpa [misplaced?, UInt32.not_le.mpr hab] using h
    have ih := pairwise_of_misplaced?_eq_none (fun r hr => ordered r (List.mem_cons_of_mem _ hr)) h'
    refine List.pairwise_cons.mpr ⟨fun r hr => ?_, ih⟩
    rcases List.mem_cons.mp hr with rfl | hr
    · exact hab
    · have hb := ordered b (by simp)
      have hbr := List.rel_of_pairwise_cons ih hr
      exact UInt32.lt_trans hab (UInt32.lt_of_le_of_lt hb hbr)

/-- Ranges in order, and the value of the code points in none of them. -/
structure RangeMap where
  ranges : List CodeRange
  default : UInt32
  first_le_last : ∀ r ∈ ranges, r.first ≤ r.last
  separated : ranges.Pairwise fun a b => a.last < b.first

namespace RangeMap

/-- The map with the given ranges.  The first inverted range is reported before ranges that do not
follow each other. -/
def ofRanges (ranges : List CodeRange) (default : UInt32) : Except Error RangeMap :=
  match hi : ranges.find? fun r => decide (r.last < r.first) with
  | some r => .error (.rangeOrder (.inverted r))
  | none =>
    have ordered : ∀ r ∈ ranges, r.first ≤ r.last := fun r hr =>
      UInt32.not_lt.mp fun hlt => by simpa [hlt] using List.find?_eq_none.mp hi r hr
    match hm : misplaced? ranges with
    | some (before, r) => .error (.rangeOrder (.misplaced r before))
    | none => .ok ⟨ranges, default, ordered, pairwise_of_misplaced?_eq_none ordered hm⟩

/-- The value of the range that contains the code point, or the default. -/
def get (m : RangeMap) (code : UInt32) : UInt32 :=
  match m.ranges.find? (·.contains code) with
  | some r => r.value
  | none => m.default

/-- Every range lies below the power of two of the width, in a word.  The last range decides. -/
def requireDomain (m : RangeMap) (domainBits : Nat) : Except Error Unit :=
  match m.ranges.getLast? with
  | some r =>
    if wordPow domainBits ≤ r.last.toNat then .error (.config (.outsideDomain r domainBits)) else .ok ()
  | none => .ok ()

/-- Every value, and last the default, can be written in the width. -/
def requireWidth (m : RangeMap) (width : Width) : Except Error Unit :=
  match (m.ranges.map (·.value) ++ [m.default]).find? (! width.fits ·) with
  | some value => .error (.valueOverflow value width.bits)
  | none => .ok ()

/-- Write `value` into `count` cells from `first` on. -/
def fill (value : UInt32) : Nat → Nat → Array UInt32 → Array UInt32
  | 0, _, cells => cells
  | count + 1, first, cells => fill value count (first + 1) (cells.setIfInBounds first value)

/-- Write a range over cells numbered by code point; what lies past the last cell is left out. -/
def overlay (cells : Array UInt32) (r : CodeRange) : Array UInt32 :=
  fill r.value (min (r.last.toNat + 1) cells.size - r.first.toNat) r.first.toNat cells

/-- The values of the keys of a width, in order.  There are as many as its power of two, in a word. -/
def dense (m : RangeMap) (keyBits : Nat) : Array UInt32 :=
  m.ranges.foldl overlay (Array.replicate (wordPow keyBits) m.default)

end RangeMap

end Multistage
