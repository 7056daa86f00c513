import Multistage.Compilation

/-!
# Search for the best split

All splits of the key into levels within some bounds are tried, and the one with the smallest tables
is kept; of splits with equally small tables the one with fewer levels, and then the one that comes
first in lexicographic order.  The single level that covers the whole key is always tried.

Leaves do not depend on the levels above them, nor stages on the levels above them, so levels are
chosen from the leaves up.  A choice whose levels already take more than the best split is dropped.

* `SearchBounds` — how many levels, and how wide.
* `Split.search` — the best split, its size, and the number of splits that were tried.
* `Split.compile` — the table of the best split.
-/

namespace Multistage

/-- Bounds of the search. -/
structure SearchBounds where
  /-- Most levels. -/
  maxLevels : Nat := 4
  /-- Least width of a level below the top, which takes what is left. -/
  minBits : Nat := 2
  /-- Greatest width of a level. -/
  maxBits : Nat := 12
  deriving DecidableEq, Repr

/-- Widths of the levels from the top to the leaves, and the bytes of the tables. -/
structure Split where
  levels : List Nat
  bytes : Nat
  deriving DecidableEq, Repr

/-- The best split and the number of splits that were tried. -/
structure SearchResult where
  best : Split
  tried : Nat
  deriving DecidableEq, Repr

namespace Split

/-- Smaller, or as small with fewer levels, or with as many levels and first in order. -/
def Better (a b : Split) : Prop :=
  a.bytes < b.bytes ∨ a.bytes = b.bytes ∧
    (a.levels.length < b.levels.length ∨
      a.levels.length = b.levels.length ∧ a.levels < b.levels)

instance (a b : Split) : Decidable (Better a b) := by
  unfold Better; infer_instance

/-- Count a split, and keep it if it is better than the best so far. -/
def consider (candidate : Split) (report : SearchResult) : SearchResult :=
  ⟨if Better candidate report.best then candidate else report.best, report.tried + 1⟩

/-- The widths from `low` to `high`, both included. -/
def widths (low high : Nat) : List Nat :=
  List.range' low (high + 1 - low)

/-- Try all splits that continue the levels `chosen`, which take `cost` bytes.  `refs` are the block
numbers above them, `remaining` bits are left for the levels above, of which there may be `spare`
besides the top. -/
def extendUp (bounds : SearchBounds) : (spare : Nat) → (refs : Array Nat) → (remaining : Nat) →
    (chosen : List Nat) → (cost : Nat) → SearchResult → SearchResult
  | spare, refs, remaining, chosen, cost, report =>
    if report.best.bytes < cost then report
    else
      let report :=
        if remaining ≤ bounds.maxBits then
          consider ⟨remaining :: chosen, cost + pageBytes refs⟩ report
        else report
      match spare with
      | 0 => report
      | spare + 1 =>
        (widths bounds.minBits (min bounds.maxBits (remaining - 1))).foldl
          (fun report bits =>
            let (cells, up) := Pool.share bits refs
            extendUp bounds spare up (remaining - bits) (bits :: chosen) (cost + pageBytes cells) report)
          report

/-- Try all splits with at least two levels.  The leaves are those of each width in turn. -/
def extendLeaves (bounds : SearchBounds) (domainBits packedBits : Nat)
    (leaves : Nat → Nat × Array Nat) (report : SearchResult) : SearchResult :=
  match bounds.maxLevels with
  | 0 | 1 => report
  | spare + 2 =>
    (widths (max bounds.minBits (max packedBits 1)) (min bounds.maxBits (domainBits - 1))).foldl
      (fun report bits =>
        let (bytes, refs) := leaves bits
        extendUp bounds spare refs (domainBits - bits) [bits] bytes report)
      report

/-- The bytes of the leaves of a given width, and the number of each block of keys. -/
def leafCost (width : Width) (dense : Array UInt32) (bits : Nat) : Nat × Array Nat :=
  let (cells, refs) := Pool.share bits dense
  (cells.size * width.bytes, refs)

/-- The same for values packed into bytes, of which each holds `2 ^ packedBits`. -/
def packedLeafCost (packedBits : Nat) (bytes : Array UInt8) (bits : Nat) : Nat × Array Nat :=
  let (cells, refs) := Pool.share (bits - packedBits) bytes
  (cells.size, refs)

/-- Run the search on the values of all keys of a layout with a single level. -/
def searchDense (layout : Layout) (dense : Array UInt32) (bounds : SearchBounds) : SearchResult :=
  let packedBits := Compilation.packedBits layout
  if layout.packed then
    let bytes := Packing.packAll layout.width.bits dense
    extendLeaves bounds layout.domainBits packedBits (packedLeafCost packedBits bytes)
      ⟨⟨[layout.domainBits], bytes.size⟩, 1⟩
  else
    extendLeaves bounds layout.domainBits packedBits (leafCost layout.width dense)
      ⟨⟨[layout.domainBits], dense.size * layout.width.bytes⟩, 1⟩

/-- The best split of the key for a range map.  The bounds are checked first, then the domain and the
packing, then the ranges, then the values. -/
def search (map : RangeMap) (width : Width) (packed : Bool) (domainBits : Nat)
    (bounds : SearchBounds) : Except Error SearchResult :=
  if bounds.maxLevels = 0 then
    .error (.config .noSearchLevels)
  else if bounds.minBits = 0 ∨ bounds.maxBits < bounds.minBits then
    .error (.config (.searchBounds bounds.minBits bounds.maxBits))
  else
    match Layout.ofLevels domainBits [domainBits] width packed with
    | .error e => .error e
    | .ok layout =>
      match map.requireDomain domainBits with
      | .error e => .error e
      | .ok () =>
        match map.requireWidth width with
        | .error e => .error e
        | .ok () => .ok (searchDense layout (map.dense domainBits) bounds)

/-- What the search has to report. -/
def logLine (report : SearchResult) : Log.Line :=
  let (bytes, tried) := (report.best.bytes, report.tried)
  ⟨.info, .encode, "split " ++ Text.list report.best.levels ++ s!": {bytes} b, {tried} candidates"⟩

/-- The table of the best split, and what search and build have to report. -/
def compile (map : RangeMap) (width : Width) (packed : Bool) (domainBits : Nat)
    (bounds : SearchBounds) : Except Error (Compilation × List Log.Line) :=
  match search map width packed domainBits bounds with
  | .error e => .error e
  | .ok report =>
    match Layout.ofLevels domainBits report.best.levels width packed with
    | .error e => .error e
    | .ok layout =>
      match Compilation.build layout map with
      | .error e => .error e
      | .ok made => .ok (made, logLine report :: made.log)

end Split

end Multistage
