import Multistage.Disk
import Multistage.Sample

/-!
# The program

The program makes the sample catalog and puts its files into a folder, which is made if it is
missing.  Which of its reports are written is left to its caller.

* `Publish.folderOf` — the folder the arguments name.
* `Publish.catalogLine` — the last report.
* `Publish.run` — the whole run on a disk.
-/

namespace Multistage.Publish

/-- The first argument, or the folder `data`. -/
def folderOf (args : List String) : String :=
  args.headD "./data"

/-- The number of properties and their bytes. -/
def catalogLine (c : Catalog) : Log.Line :=
  let (count, bytes) := (c.size, c.bytes)
  ⟨.info, .program, s!"catalog: {count} properties, {bytes} b"⟩

/-- What a run leaves behind. -/
structure Run where
  exitCode : Nat
  log : List Log.Line
  disk : Disk

/-- Write batches of files, and report each. -/
def writeBatches (folder : Folder) : List Batch → Run → Run
  | [], r => r
  | b :: rest, r =>
    match r.disk.writeAll folder b.files with
    | (disk, some _) => { r with exitCode := 1, disk }
    | (disk, none) => writeBatches folder rest { r with disk, log := r.log ++ b.log }

/-- Make the catalog and write its files.  A failure ends the run with exit code one. -/
def writeSample (folder : Folder) (disk : Disk) : Run :=
  match Sample.construction with
  | .error _ => ⟨1, [], disk⟩
  | .ok made =>
    match made.result with
    | .error _ => ⟨1, made.log, disk⟩
    | .ok c =>
      match c.batches with
      | .error _ => ⟨1, made.log, disk⟩
      | .ok batches =>
        let r := writeBatches folder batches ⟨0, made.log, disk⟩
        if r.exitCode = 0 then { r with log := r.log ++ [catalogLine c] } else r

/-- The whole run: first the folder is made, then the catalog, then the files.  The log is that of the
admitted lines. -/
def run (admits : Log.Line → Bool) (args : List String) (disk : Disk) : Run :=
  match disk.enter (folderOf args) with
  | .error _ => ⟨1, [], disk⟩
  | .ok (disk, folder) =>
    let r := writeSample folder disk
    { r with log := r.log.filter admits }

end Multistage.Publish
