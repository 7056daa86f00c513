import Multistage.Log
import Multistage.Pool
import Multistage.RangeMap
import Multistage.Report
import Multistage.Table.Check

/-!
# Building tables

The values of all keys are written out and cut into blocks; equal blocks are shared; the block
numbers are the cells of the level above, which is cut and shared in the same way, up to the top.

* `Compilation.leafOf` — the leaves of an array of values, and the block number of each part.
* `Compilation.stack` — the stages above an array of block numbers.
* `Compilation.build` — the table of a range map under a layout, with statistics.
-/

namespace Multistage

/-- A table and the statistics of its making. -/
structure Compilation where
  table : Table
  report : Report

namespace Compilation

/-- Bits of the block size that packing takes: a byte holds `2 ^ packedBits` values. -/
def packedBits (layout : Layout) : Nat :=
  Nat.log2 layout.cellCapacity

/-- The leaves of the values of all keys, and the number of each block of keys. -/
def leafOf (layout : Layout) (dense : Array UInt32) : Leaf × Array Nat :=
  if layout.packed then
    let bytes := Packing.packAll layout.width.bits dense
    let (cells, refs) := Pool.share (layout.leafBits - packedBits layout) bytes
    (⟨layout.leafBits, layout.width, .packed cells⟩, refs)
  else
    let (cells, refs) := Pool.share layout.leafBits dense
    (⟨layout.leafBits, layout.width, .plain cells⟩, refs)

/-- A stage with the number of its blocks before equal ones were shared. -/
structure Layer where
  stage : Stage
  logical : Nat

/-- The stages of the given widths above some block numbers, and the block numbers of the first. -/
def stack : List Nat → Array Nat → List Layer × Array Nat
  | [], refs => ([], refs)
  | bits :: below, refs =>
    let (layers, refs) := stack below refs
    let (cells, up) := Pool.share bits refs
    (⟨⟨bits, cells⟩, refs.size / 2 ^ bits⟩ :: layers, up)

/-- The records of the stages from the given level on, then that of the leaves. -/
def record (leaf : Leaf) (leafBlocks : Nat) : Nat → List Layer → List LevelReport
  | level, [] => [⟨level, leaf.bits, leafBlocks, leaf.blockCount, leaf.cellBytes, leaf.bytes⟩]
  | level, ⟨s, logical⟩ :: rest =>
    ⟨level, s.bits, logical, s.blockCount, s.cellBytes, s.bytes⟩ ::
      record leaf leafBlocks (level + 1) rest

/-- The table of a range map under a layout.  A range outside the domain is reported before a value
that has no room in the width. -/
def build (layout : Layout) (map : RangeMap) : Except Error Compilation :=
  match map.requireDomain layout.domainBits with
  | .error e => .error e
  | .ok () =>
    match map.requireWidth layout.width with
    | .error e => .error e
    | .ok () =>
      let (leaf, refs) := leafOf layout (map.dense layout.keyBits)
      let (layers, _) := stack layout.stageBits refs
      match Table.ofParts layout (layers.map (·.stage)) leaf map.default with
      | .error e => .error e
      | .ok table => .ok ⟨table, ⟨record leaf refs.size 0 layers⟩⟩

/-- The log line of a level. -/
def logLine (s : LevelReport) : Log.Line :=
  let (level, bits, logical, physical, bytes) := (s.level, s.bits, s.logical, s.physical, s.bytes)
  ⟨.debug, .encode, s!"level {level} ({bits} bits): {logical} -> {physical} blocks, {bytes} b"⟩

/-- What building has to report: a line for each level. -/
def log (b : Compilation) : List Log.Line :=
  b.report.levels.map logLine

end Compilation

end Multistage
