import Multistage.SideTable
import Multistage.Wire.Table

/-!
# Side tables as bytes

A byte says whether there is a side table.  If there is, the longest record follows in one byte, the
number of cells in four, and the cells in four bytes each.
-/

namespace Multistage.SideTable

/-- The bytes of a side table, or of its absence. -/
def encode : Option SideTable → List UInt8
  | none => Wire.number 1 0
  | some t =>
    Wire.number 1 1 ++ Wire.number 1 t.capacity ++ Wire.number 4 t.cellCount ++
      t.cells.flatMap fun c => Wire.number 4 c.toNat

/-- Read a side table, or that there is none. -/
def decode : Decoder (Option SideTable) := do
  let present ← Decoder.flag .sideTableFlag
  if present then
    let capacity ← Decoder.number 1
    let count ← Decoder.cellCount
    let cells ← Decoder.many count (Decoder.word 4)
    let t ← Decoder.loaded (ofCells capacity cells.toList)
    return some t
  else
    return none

end Multistage.SideTable
