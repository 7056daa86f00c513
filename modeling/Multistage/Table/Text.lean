import Multistage.Table.Check

/-!
# A table in words

`Table.text` gives the widths of a table, and the number of blocks and bytes of each level.
-/

namespace Multistage.Table

/-- One line for each stage from the given level on. -/
def stageLines : Nat → List Stage → List String
  | _, [] => []
  | level, s :: rest =>
    let (blocks, cells, size) := (s.blockCount, 2 ^ s.bits, s.bytes)
    s!"  level {level}: {blocks} blocks x {cells}, {size} b" :: stageLines (level + 1) rest

/-- The lines of the text. -/
def lines (t : Table) : List String :=
  let bits := t.layout.width.bits
  let (blocks, cells, size) := (t.leaf.blockCount, 2 ^ t.leaf.bits, t.leaf.bytes)
  ["\x7b",
    "  levels: " ++ Text.list t.layout.levels ++ s!", value: {bits} bits" ++
      (if t.layout.packed then " (packed)" else "")] ++
  stageLines 0 t.stages ++
  [s!"  leaf: {blocks} blocks x {cells}, {size} b", "\x7d"]

/-- The lines, each ended by a line feed. -/
def text (t : Table) : String :=
  String.join (t.lines.map (· ++ "\n"))

end Multistage.Table
