import Multistage.Property.Basic
import Multistage.Split

/-!
# Specifications of properties

A specification says what a property is to be made of: its ranges, the width and packing of its
values, its domain, and how the key is split.

* `Spec.ofFlags`, `Spec.ofDeltas`, `Spec.ofLists` — specifications of the common kinds.
* `Spec.run` — the property, or why it cannot be made, and what there is to report.
-/

namespace Multistage

/-- How the split of the key is found. -/
inductive SplitRule where
  /-- These widths, from the top to the leaves. -/
  | fixed (levels : List Nat)
  /-- The best within these bounds. -/
  | search (bounds : SearchBounds)
  deriving DecidableEq, Repr

structure Spec where
  name : String
  kind : Kind
  width : Width
  map : RangeMap
  packed : Bool := false
  domainBits : Nat := CodePoint.standardBits
  split : SplitRule := .search {}
  sideTable : Option SideTable := none

namespace Spec

/-- True in the ranges and false elsewhere, packed eight to a byte. -/
def ofFlags (name : String) (ranges : List (UInt32 × UInt32)) : Except Error Spec :=
  match RangeMap.ofRanges (ranges.map fun (first, last) => ⟨first, last, 1⟩) 0 with
  | .error e => .error e
  | .ok map => .ok { name, kind := .boolean, width := .one, map, packed := true }

/-- The ranges with their distances as words of the width. -/
def deltaRanges (width : Width) :
    List (UInt32 × UInt32 × Int) → Except Error (List CodeRange)
  | [] => .ok []
  | (first, last, delta) :: rest =>
    match Delta.encode delta width with
    | .error e => .error e
    | .ok value =>
      match deltaRanges width rest with
      | .error e => .error e
      | .ok ranges => .ok (⟨first, last, value⟩ :: ranges)

/-- A signed distance in each range and zero elsewhere. -/
def ofDeltas (name : String) (width : Width) (ranges : List (UInt32 × UInt32 × Int)) :
    Except Error Spec :=
  match deltaRanges width ranges with
  | .error e => .error e
  | .ok ranges =>
    match RangeMap.ofRanges ranges 0 with
    | .error e => .error e
    | .ok map => .ok { name, kind := .signedDelta, width, map }

/-- Give each list a record; the ranges hold the record numbers. -/
def internAll (b : Interner) :
    List (UInt32 × List UInt32) → List CodeRange → Except Error (Interner × List CodeRange)
  | [], ranges => .ok (b, ranges.reverse)
  | (code, payload) :: rest, ranges =>
    match b.intern payload with
    | .error e => .error e
    | .ok (number, b) => internAll b rest (⟨code, code, UInt32.ofNat number⟩ :: ranges)

/-- The least width, from a byte up, for the numbers of that many records. -/
def indexWidth (rows : Nat) : Width :=
  if rows ≤ 0x100 then .eight else if rows ≤ 0x10000 then .sixteen else .thirtyTwo

/-- A list of code points for each of the given ones; any other stands for itself. -/
def ofLists (name : String) (capacity : Nat) (lists : List (UInt32 × List UInt32)) :
    Except Error Spec :=
  match Interner.empty capacity with
  | .error e => .error e
  | .ok b =>
    match internAll b lists [] with
    | .error e => .error e
    | .ok (b, ranges) =>
      match RangeMap.ofRanges ranges 0 with
      | .error e => .error e
      | .ok map =>
        .ok { name, kind := .codepointList, width := indexWidth b.table.recordCount, map,
              sideTable := some b.table }

/-- The table of the specification, and what there is to report. -/
def compile (s : Spec) : Except Error (Compilation × List Log.Line) :=
  match s.split with
  | .search bounds => Split.compile s.map s.width s.packed s.domainBits bounds
  | .fixed levels =>
    match Layout.ofLevels s.domainBits levels s.width s.packed with
    | .error e => .error e
    | .ok layout =>
      match Compilation.build layout s.map with
      | .error e => .error e
      | .ok made => .ok (made, made.log)

/-- The report that a table has been made. -/
def logLine (s : Spec) (table : Table) : Log.Line :=
  let size := table.bytes
  ⟨.info, .catalog, s.name ++ ": levels " ++ Text.list table.layout.levels ++ s!", {size} b"⟩

/-- What making a property came to, and what there is to report. -/
structure Outcome where
  result : Except Error Property
  log : List Log.Line

/-- Make the property.  An error carries the name of the property. -/
def run (s : Spec) : Outcome :=
  match s.compile with
  | .error e => ⟨.error (.property s.name e), []⟩
  | .ok (made, log) =>
    let log := log ++ [s.logLine made.table]
    match Property.ofParts s.name s.kind made.table s.sideTable made.report with
    | .error e => ⟨.error (.property s.name e), log⟩
    | .ok p => ⟨.ok p, log⟩

/-- The property, or why it cannot be made. -/
def build (s : Spec) : Except Error Property :=
  s.run.result

end Spec

end Multistage
