import Multistage.Delta
import Multistage.Property.Value
import Multistage.SideTable
import Multistage.Report
import Multistage.Table.Lookup

/-!
# Properties

A property has a name, a kind, a table, and, if its kind is a list of code points, a side table that
has a record for every value of the table.

* `Property.ofParts` — the property with the given parts, if they fit together.
* `Property.stored` — the number stored for a code point.
* `Property.get` — that number read according to the kind.
-/

namespace Multistage

structure Property where
  name : String
  kind : Kind
  table : Table
  sideTable : Option SideTable
  /-- Statistics of the making of the table; none if it was read from stored data. -/
  report : Report
  name_ne : name ≠ ""
  isSome_sideTable : sideTable.isSome = (kind == .codepointList)
  indices : ∀ side ∈ sideTable, side.requireCovers table = .ok ()

namespace Property

/-- The property with the given parts.  An empty name is reported first, then a side table that is
missing or has no use, then values without a record. -/
def ofParts (name : String) (kind : Kind) (table : Table) (sideTable : Option SideTable)
    (report : Report) : Except Error Property :=
  if hn : name = "" then
    .error (.config .emptyName)
  else
    match sideTable with
    | none =>
      if hk : kind = .codepointList then .error (.config (.noSideTable name))
      else .ok ⟨name, kind, table, none, report, hn, by simp [hk], by simp⟩
    | some side =>
      if hk : kind = .codepointList then
        match hs : side.requireCovers table with
        | .error e => .error e
        | .ok () =>
          .ok ⟨name, kind, table, some side, report, hn, by simp [hk], by simpa using hs⟩
      else .error (.config (.sideTableUnused name kind))

/-- The number stored for a code point. -/
def stored (p : Property) (code : UInt32) : UInt32 :=
  p.table.get code

/-- What the property says about a code point. -/
def get (p : Property) (code : UInt32) : Value :=
  match p.kind with
  | .boolean => .boolean (p.stored code != 0)
  | .enumeration => .enumeration (p.stored code)
  | .signedDelta => .signedDelta (Delta.decode (p.stored code) p.table.layout.width)
  | .codepointList =>
    match p.sideTable with
    | some side => .codepoints (side.lookup (p.stored code) code)
    | none => .codepoints (CodePoints.single code)

/-- Bytes of the table and of the side table. -/
def bytes (p : Property) : Nat :=
  p.table.bytes +
    match p.sideTable with
    | some side => side.cellCount * 4
    | none => 0

end Property

end Multistage
