import Multistage.Layout
import Multistage.Packing

/-!
# Stages and leaves

A table has one row of blocks for each level.  The cells of a stage are page numbers: the numbers of
blocks of the next level.  The cells of the leaves are values, or bytes of packed values.

* `Stage` — a level of page numbers; `Stage.cellBytes` is the least width that holds them all.
* `Leaf` — the level of values; `Leaf.get?` is one of them, `Leaf.values` are all of them.
-/

namespace Multistage

/-- Least number of bytes, out of 1, 2 and 4, that hold the number. -/
def bytesFor (n : Nat) : Nat :=
  if n ≤ 0xFF then 1 else if n ≤ 0xFFFF then 2 else 4

/-- Index of the first cell of a block, as a 64-bit address. -/
def blockAddress (bits : Nat) (block : UInt32) : UInt64 :=
  UInt64.ofNat (block.toNat * 2 ^ bits)

/-- The largest of some numbers, zero if there is none. -/
def largest (ns : Array Nat) : Nat :=
  ns.foldl max 0

/-- Bytes that an array of page numbers takes in cells of the least width. -/
def pageBytes (pages : Array Nat) : Nat :=
  pages.size * bytesFor (largest pages)

/-- A level of page numbers, in blocks of `2 ^ bits`. -/
structure Stage where
  bits : Nat
  pages : Array Nat
  deriving DecidableEq, Repr

namespace Stage

/-- Number of whole blocks. -/
def blockCount (s : Stage) : Nat :=
  s.pages.size / 2 ^ s.bits

/-- Bytes of a cell: the least that hold every page number. -/
def cellBytes (s : Stage) : Nat :=
  bytesFor (largest s.pages)

/-- Bytes of all cells. -/
def bytes (s : Stage) : Nat :=
  pageBytes s.pages

end Stage

/-- The cells of the leaves. -/
inductive Cells where
  /-- One value to a cell. -/
  | plain (values : Array UInt32)
  /-- Several narrow values to a byte. -/
  | packed (bytes : Array UInt8)
  deriving DecidableEq, Repr

/-- The level of values, in blocks of `2 ^ bits` values. -/
structure Leaf where
  bits : Nat
  width : Width
  cells : Cells
  deriving DecidableEq, Repr

namespace Leaf

/-- The cells are bytes of packed values. -/
def packed (leaf : Leaf) : Bool :=
  match leaf.cells with
  | .plain _ => false
  | .packed _ => true

/-- Number of values. -/
def length (leaf : Leaf) : Nat :=
  match leaf.cells with
  | .plain values => values.size
  | .packed bytes => bytes.size * Packing.capacity leaf.width.bits

/-- Number of whole blocks. -/
def blockCount (leaf : Leaf) : Nat :=
  leaf.length / 2 ^ leaf.bits

/-- The value with the given number. -/
def get? (leaf : Leaf) (index : Nat) : Option UInt32 :=
  match leaf.cells with
  | .plain values => values[index]?
  | .packed bytes => Packing.get? leaf.width.bits bytes index

/-- All values in order. -/
def values (leaf : Leaf) : List UInt32 :=
  match leaf.cells with
  | .plain values => values.toList
  | .packed bytes => bytes.toList.flatMap (Packing.unpack leaf.width.bits)

/-- Bytes of a cell. -/
def cellBytes (leaf : Leaf) : Nat :=
  match leaf.cells with
  | .plain _ => leaf.width.bytes
  | .packed _ => 1

/-- Number of cells. -/
def cellCount (leaf : Leaf) : Nat :=
  match leaf.cells with
  | .plain values => values.size
  | .packed bytes => bytes.size

/-- Bytes of all cells. -/
def bytes (leaf : Leaf) : Nat :=
  leaf.cellCount * leaf.cellBytes

end Leaf

end Multistage
