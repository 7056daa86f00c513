import Multistage.Table.Basic

/-!
# Tables

A table is a layout with one stage for each level above the leaves, the leaves, and a default for
keys outside.  Its parts are checked as a whole when it is made:

* there is a stage for each level above the leaves, and the leaves are as the layout says;
* each level consists of whole blocks of its width, the top level of exactly one;
* each page number is the number of a block of the next level, and each such block is referred to;
* the default and all values have room in the width of the layout.

`Table.ofParts` makes the table of parts that pass, `Table.check` reports the first failure.
-/

namespace Multistage

namespace Table

/-- Number of cells and width of each level, the leaves last. -/
def shapes (stages : List Stage) (leaf : Leaf) : List (Nat × Nat) :=
  stages.map (fun s => (s.pages.size, s.bits)) ++ [(leaf.length, leaf.bits)]

/-- One level: its cells form whole blocks of the declared width, and exactly one at the top. -/
def checkShape (level declared : Nat) (shape : Nat × Nat) : Except Error Unit :=
  let (cells, bits) := shape
  if bits ≠ declared ∨ cells % 2 ^ declared ≠ 0 ∨ cells = 0 then
    .error (.format (.raggedLevel level cells (2 ^ declared)))
  else if level = 0 ∧ cells ≠ 2 ^ declared then
    .error (.format (.topLevel cells (2 ^ declared)))
  else .ok ()

/-- All levels from the given one on. -/
def checkShapes : Nat → List Nat → List (Nat × Nat) → Except Error Unit
  | level, declared :: widths, shape :: shapes =>
    match checkShape level declared shape with
    | .error e => .error e
    | .ok () => checkShapes (level + 1) widths shapes
  | _, _, _ => .ok ()

/-- The first block, out of `count`, that no page number refers to. -/
def unused? (pages : Array Nat) (count : Nat) : Option Nat :=
  let marks := pages.foldl (fun marks page => marks.setIfInBounds page true)
    (Array.replicate count false)
  marks.findIdx? (! ·)

/-- One stage: its page numbers are those of the blocks of the next level. -/
def checkPages (level : Nat) (pages : Array Nat) (blocks : Nat) : Except Error Unit :=
  match pages.find? (blocks ≤ ·) with
  | some page => .error (.format (.danglingPage level page blocks))
  | none =>
    match unused? pages blocks with
    | some block => .error (.format (.unusedBlock block (level + 1)))
    | none => .ok ()

/-- All stages from the given one on. -/
def checkReferences (leaf : Leaf) : Nat → List Stage → Except Error Unit
  | _, [] => .ok ()
  | level, s :: rest =>
    let blocks := match rest with
      | [] => leaf.blockCount
      | next :: _ => next.blockCount
    match checkPages level s.pages blocks with
    | .error e => .error e
    | .ok () => checkReferences leaf (level + 1) rest

/-- Every plain value has room in the width; packed values always have. -/
def checkValues (width : Width) (leaf : Leaf) : Except Error Unit :=
  match leaf.cells with
  | .packed _ => .ok ()
  | .plain values =>
    match values.find? (! width.fits ·) with
    | some value => .error (.valueOverflow value width.bits)
    | none => .ok ()

/-- Whether the parts form a table. -/
def check (layout : Layout) (stages : List Stage) (leaf : Leaf) (default : UInt32) :
    Except Error Unit :=
  if stages.length ≠ layout.stageCount then
    .error (.format (.stageCount stages.length layout.depth))
  else if layout.width.fits default = false then
    .error (.valueOverflow default layout.width.bits)
  else if leaf.bits ≠ layout.leafBits ∨ leaf.width ≠ layout.width ∨ leaf.packed ≠ layout.packed then
    .error (.format .leafMismatch)
  else
    match checkShapes 0 layout.levels (shapes stages leaf) with
    | .error e => .error e
    | .ok () =>
      match checkReferences leaf 0 stages with
      | .error e => .error e
      | .ok () => checkValues layout.width leaf

end Table

/-- The stages and leaves of a property, checked against its layout. -/
structure Table where
  layout : Layout
  stages : List Stage
  leaf : Leaf
  /-- The value of keys outside the table. -/
  default : UInt32
  checked : Table.check layout stages leaf default = .ok ()

namespace Table

/-- The table of the given parts, if they form one. -/
def ofParts (layout : Layout) (stages : List Stage) (leaf : Leaf) (default : UInt32) :
    Except Error Table :=
  match h : check layout stages leaf default with
  | .error e => .error e
  | .ok () => .ok ⟨layout, stages, leaf, default, h⟩

/-- Bytes of all levels, with the cells of each stage as narrow as its page numbers allow. -/
def bytes (t : Table) : Nat :=
  (t.stages.map Stage.bytes).sum + t.leaf.bytes

/-- Bytes of a single level that covers the same keys. -/
def flatBytes (t : Table) : Nat :=
  if t.layout.packed then 2 ^ t.layout.keyBits / t.layout.cellCapacity
  else 2 ^ t.layout.keyBits * t.layout.width.bytes

/-- The largest value a lookup can give: every block of leaves is referred to, so it is the largest
of the default and the values of the leaves. -/
def largestValue (t : Table) : UInt32 :=
  t.leaf.values.foldl max t.default

end Table

end Multistage
