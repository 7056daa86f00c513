import Multistage.Table.Check
import Multistage.Wire.Decoder

/-!
# Tables as bytes

A table is stored as

* the letters `CPTR` and the version of the format, two bytes;
* the width of the domain, the number of levels and the width of each, the width of a value, whether
  leaves are packed, a byte each; the default, four bytes;
* for each stage the number of its cells, four bytes, the bytes of a cell, one byte, and the cells;
* the number of cells of the leaves, four bytes, and the cells.

`Table.encode` writes the cells of a stage as narrow as its page numbers allow; `Table.decode` takes
any of the three widths, and checks the table as a whole.
-/

namespace Multistage

namespace Wire

/-- Version of the format. -/
def version : Nat := 1

/-- The letters in front of a table. -/
def tableMark : List UInt8 := [0x43, 0x50, 0x54, 0x52]

/-- Most cells of a level that are read. -/
def maxCells : Nat := 2 ^ maxKeyBits

/-- Number of cells, bytes of a cell, and the cells of a stage. -/
def stage (s : Stage) : List UInt8 :=
  number 4 s.pages.size ++ number 1 s.cellBytes ++ s.pages.toList.flatMap (number s.cellBytes)

/-- The cells of the leaves. -/
def leafCells (leaf : Leaf) : List UInt8 :=
  match leaf.cells with
  | .packed bytes => bytes.toList
  | .plain values => values.toList.flatMap fun v => number leaf.width.bytes v.toNat

/-- Number of cells and the cells of the leaves. -/
def leaf (leaf : Leaf) : List UInt8 :=
  number 4 leaf.cellCount ++ leafCells leaf

/-- What stands in front of the stages. -/
def layout (l : Layout) (default : UInt32) : List UInt8 :=
  tableMark ++ number 2 version ++ number 1 l.domainBits ++ number 1 l.depth ++
    l.levels.flatMap (number 1) ++ number 1 l.width.bits ++ number 1 l.packed.toNat ++
    number 4 default.toNat

end Wire

namespace Decoder

/-- A number of cells, which has to be within reason. -/
def cellCount : Decoder Nat := do
  let count ← number 4
  if Wire.maxCells < count then malformed (.levelCells count) else return count

/-- A cell of one, two or four bytes. -/
def cell (width : Nat) : Decoder Nat :=
  if width = 1 ∨ width = 2 ∨ width = 4 then number width else malformed (.cellWidth width)

/-- A stage of the given width. -/
def stage (bits : Nat) : Decoder Stage := do
  let count ← cellCount
  let width ← number 1
  let pages ← many count (cell width)
  return ⟨bits, pages⟩

/-- Stages of the given widths. -/
def stages : List Nat → Decoder (List Stage)
  | [] => pure []
  | bits :: rest => do
    let first ← stage bits
    let others ← stages rest
    return first :: others

/-- A 32-bit word in `size` bytes. -/
def word (size : Nat) : Decoder UInt32 := do
  let n ← number size
  return UInt32.ofNat n

/-- The cells of the leaves. -/
def leafCells (l : Layout) : Decoder Cells := do
  let count ← cellCount
  if l.packed then
    let bytes ← many count byte
    return .packed bytes
  else
    let values ← many count (word l.width.bytes)
    return .plain values

/-- The layout of a table and its default. -/
def layout : Decoder (Layout × UInt32) := do
  header Wire.tableMark Wire.version
  let domainBits ← number 1
  let count ← number 1
  let levels ← many count (number 1)
  let bits ← number 1
  let width ← loaded (Width.ofBits bits)
  let packed ← flag .packingFlag
  let default ← word 4
  let l ← loaded (Layout.ofLevels domainBits levels.toList width packed)
  return (l, default)

end Decoder

namespace Table

/-- The bytes of a table. -/
def encode (t : Table) : List UInt8 :=
  Wire.layout t.layout t.default ++ t.stages.flatMap Wire.stage ++ Wire.leaf t.leaf

/-- Read a table. -/
def decode : Decoder Table := do
  let (l, default) ← Decoder.layout
  let stages ← Decoder.stages l.stageBits
  let cells ← Decoder.leafCells l
  Decoder.checked (ofParts l stages ⟨l.leafBits, l.width, cells⟩ default)

end Table

end Multistage
