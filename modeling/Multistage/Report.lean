import Multistage.Text.FixedPoint

/-!
# Statistics of a build

For each level: how many blocks there were before equal ones were shared, how many are left, and what
they take.

* `LevelReport.ratio` — the part of the blocks that is left.
* `Report.modify` — change the record of a level, which is added if it is missing.
* `Report.bytes` — bytes of all levels.
* `Report.text` — the report under a name.
-/

namespace Multistage

structure LevelReport where
  /-- Number of the level, zero at the top. -/
  level : Nat
  bits : Nat := 0
  /-- Blocks before equal ones were shared. -/
  logical : Nat := 0
  /-- Blocks after. -/
  physical : Nat := 0
  /-- Bytes of a cell. -/
  cellBytes : Nat := 0
  /-- Bytes of all cells. -/
  bytes : Nat := 0
  deriving DecidableEq, Repr

namespace LevelReport

/-- Record the blocks of the level. -/
def withBlocks (bits logical physical : Nat) (s : LevelReport) : LevelReport :=
  { s with bits, logical, physical }

/-- Record the size of the level. -/
def withSize (cellBytes bytes : Nat) (s : LevelReport) : LevelReport :=
  { s with cellBytes, bytes }

/-- The part of the blocks that is left, all of them if there were none. -/
def ratio (s : LevelReport) : Float :=
  if s.logical = 0 then 1.0 else Float.ofNat s.physical / Float.ofNat s.logical

/-- The line of the report. -/
def text (s : LevelReport) : String :=
  let (level, bits, logical, physical) := (s.level, s.bits, s.logical, s.physical)
  let percent := Text.tenths (s.ratio * 100.0)
  let (width, cells, bytes) := (s.cellBytes, s.bytes / max s.cellBytes 1, s.bytes)
  s!"{level}. {bits} bits: {logical} -> {physical} blocks ({percent}%), {width} b x {cells}, {bytes} b"

end LevelReport

/-- The records of the levels, the top first. -/
structure Report where
  levels : List LevelReport := []
  deriving DecidableEq, Repr

namespace Report

/-- Change the record of a level.  Records that are missing up to it are added blank. -/
def modify (level : Nat) (change : LevelReport → LevelReport) (s : Report) : Report :=
  let count := s.levels.length
  let blank := (List.range' count (level + 1 - count)).map fun k => { level := k : LevelReport }
  ⟨(s.levels ++ blank).modify level change⟩

/-- Bytes of all levels. -/
def bytes (s : Report) : Nat :=
  (s.levels.map (·.bytes)).sum

/-- The name and the total, a blank line, and a line for each level. -/
def text (name : String) (s : Report) : String :=
  let total := s.bytes
  name ++ s!" ({total} b)\n\n" ++ String.join (s.levels.map (·.text ++ "\n"))

end Report

end Multistage
