import Multistage.Text.Uppercase
import Multistage.Wire.Catalog

/-!
# Files of a catalog

A catalog is put out as a file of bytes and a report for each property, and one file with the whole
catalog.

* `File.creatable` — a file can have the name.
* `Property.batch` — the two files of a property and the line of the log.
* `Catalog.batches` — the files of all properties, then that of the catalog.
-/

namespace Multistage

/-- A file in a folder. -/
structure File where
  name : String
  bytes : List UInt8
  deriving DecidableEq

namespace File

/-- Most bytes of the name of a file. -/
def maxNameBytes : Nat := 255

/-- A file in an otherwise empty folder can have the name: it has no separator and no zero character,
and is not too long. -/
def creatable (name : String) : Bool :=
  name.toList.all (fun c => c != '/' && c != Char.ofNat 0) && name.utf8ByteSize ≤ maxNameBytes

/-- A file with a text. -/
def ofText (name text : String) : File :=
  ⟨name, text.toUTF8.data.toList⟩

end File

/-- Files that are written together, and what there is to report then. -/
structure Batch where
  files : List File
  log : List Log.Line

namespace Property

/-- The name of the file with the bytes of the property. -/
def tableFile (p : Property) : String :=
  p.name ++ ".trie"

/-- The name of the file with the report. -/
def reportFile (p : Property) : String :=
  p.name ++ ".stats.txt"

/-- The report that the files are written. -/
def logLine (p : Property) : Log.Line :=
  let (size, dense) := (p.bytes, p.table.flatBytes)
  ⟨.info, .program, Text.uppercase p.name ++ s!": {size} b (dense: {dense} b)"⟩

/-- The files of a property. -/
def batch (p : Property) : Except Error Batch :=
  if File.creatable p.tableFile && File.creatable p.reportFile then
    match p.encode with
    | .error e => .error e
    | .ok bytes =>
      .ok ⟨[⟨p.tableFile, bytes⟩, File.ofText p.reportFile (p.report.text p.name)], [p.logLine]⟩
  else .error .io

end Property

namespace Catalog

/-- The name of the file with the whole catalog. -/
def catalogFile : String := "catalog.bin"

/-- The files of properties, then that of the catalog they belong to. -/
def batchesOf (c : Catalog) : List Property → Except Error (List Batch)
  | [] =>
    match c.encode with
    | .error e => .error e
    | .ok bytes => .ok [⟨[⟨catalogFile, bytes⟩], []⟩]
  | p :: rest =>
    match p.batch with
    | .error e => .error e
    | .ok batch =>
      match batchesOf c rest with
      | .error e => .error e
      | .ok batches => .ok (batch :: batches)

/-- The files of a catalog. -/
def batches (c : Catalog) : Except Error (List Batch) :=
  batchesOf c c.properties.toList

end Catalog

end Multistage
