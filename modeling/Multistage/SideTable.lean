import Std.Data.HashMap
import Multistage.CodeList
import Multistage.Table.Check

/-!
# Side tables

The values of a property table can be the numbers of records, each of them a short list of code
points.  Record zero is blank: it says that a code point stands for itself.  As cells, a record is
its length, its code points, and zeros up to the length of the longest.

* `SideTable.cells`, `SideTable.ofCells` — the records as a row of cells, and back.
* `SideTable.lookup` — what a record number says about a code point.
* `SideTable.requireCovers` — every value of a table is the number of a record.
* `Interner` — a side table in the making, in which equal lists get one record.
-/

namespace Multistage

/-- Records of up to `capacity` code points.  The blank record zero is not stored. -/
structure SideTable where
  capacity : Nat
  records : Array (CodeList capacity)
  capacity_pos : 0 < capacity
  capacity_le : capacity ≤ maxCodes

namespace SideTable

/-- The side table with the blank record only. -/
def empty (capacity : Nat) : Except Error SideTable :=
  if h : 0 < capacity ∧ capacity ≤ maxCodes then .ok ⟨capacity, #[], h.1, h.2⟩
  else .error (.config (.recordLength capacity maxCodes))

/-- Number of records, the blank one included. -/
def recordCount (t : SideTable) : Nat :=
  t.records.size + 1

/-- Cells of a record. -/
def stride (t : SideTable) : Nat :=
  t.capacity + 1

/-- Number of cells of all records. -/
def cellCount (t : SideTable) : Nat :=
  t.recordCount * t.stride

/-- The cells of a record: its length, its code points, and zeros. -/
def row {capacity : Nat} (r : CodeList capacity) : List UInt32 :=
  UInt32.ofNat r.length :: (r.codes ++ List.replicate (capacity - r.length) 0)

/-- The cells of all records, one after the other. -/
def cells (t : SideTable) : List UInt32 :=
  List.replicate t.stride 0 ++ t.records.toList.flatMap row

/-- The record with the given cells. -/
def ofRow? (capacity : Nat) : List UInt32 → Option (CodeList capacity)
  | [] => none
  | length :: codes =>
    if length.toNat ≤ capacity ∧ (codes.drop length.toNat).all (· == 0) then
      CodeList.ofList? capacity (codes.take length.toNat)
    else none

/-- Read `count` records, the first of which has the given number. -/
def readRows (capacity : Nat) : (count index : Nat) → List UInt32 → Array (CodeList capacity) →
    Except Error (Array (CodeList capacity))
  | 0, _, _, records => .ok records
  | count + 1, index, cells, records =>
    match ofRow? capacity (cells.take (capacity + 1)) with
    | none => .error (.format (.malformedRecord index))
    | some r => readRows capacity count (index + 1) (cells.drop (capacity + 1)) (records.push r)

/-- The side table with the given cells: whole records, of which the first is all zeros, and each
other one holds a length, as many code points, and zeros. -/
def ofCells (capacity : Nat) (cells : List UInt32) : Except Error SideTable :=
  match empty capacity with
  | .error e => .error e
  | .ok blank =>
    let stride := blank.stride
    let count := cells.length / stride
    if cells = [] ∨ cells.length % stride ≠ 0 then
      .error (.format (.raggedRecords cells.length stride))
    else if (cells.take stride).all (· == 0) then
      match readRows blank.capacity (count - 1) 1 (cells.drop stride) #[] with
      | .error e => .error e
      | .ok records => .ok { blank with records }
    else .error (.format (.malformedRecord 0))

/-- The code points of a record.  Record zero, and one that does not exist, say that the code point
stands for itself. -/
def lookup (t : SideTable) (index : UInt32) (code : UInt32) : CodePoints :=
  if index = 0 then CodePoints.single code
  else
    match t.records[index.toNat - 1]? with
    | some r => r.widen t.capacity_le
    | none => CodePoints.single code

/-- Every value that a table can give is the number of a record. -/
def requireCovers (t : SideTable) (table : Table) : Except Error Unit :=
  if t.recordCount ≤ table.largestValue.toNat then
    .error (.config (.danglingRecord table.largestValue.toNat t.recordCount))
  else .ok ()

/-- The side table with one more record. -/
def push (t : SideTable) (r : CodeList t.capacity) : SideTable :=
  { t with records := t.records.push r }

end SideTable

/-- A side table in the making, with the number of each list that has come in. -/
structure Interner where
  table : SideTable
  index : Std.HashMap (List UInt32) Nat

namespace Interner

/-- Nothing has come in yet. -/
def empty (capacity : Nat) : Except Error Interner :=
  match SideTable.empty capacity with
  | .error e => .error e
  | .ok table => .ok ⟨table, ∅⟩

/-- The record number of a list of code points, which gets a new record if it is new. -/
def intern (b : Interner) (payload : List UInt32) : Except Error (Nat × Interner) :=
  match CodeList.ofList? b.table.capacity payload with
  | none => .error (.config (.payloadLength payload.length b.table.capacity))
  | some r =>
    match b.index[payload]? with
    | some number => .ok (number, b)
    | none =>
      let number := b.table.recordCount
      .ok (number, ⟨b.table.push r, b.index.insert payload number⟩)

end Interner

end Multistage
