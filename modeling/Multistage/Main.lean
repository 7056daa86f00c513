import Multistage.Log.Filter
import Multistage.Publish

/-!
# The command line

`main` takes the folder for the files as its first argument, and writes the log to standard error.

* `Publish.command` — the command line, for any reading of the log setting.
-/

namespace Multistage.Publish

variable (admits : Log.Line → Bool)

/-- Write a line if it is admitted. -/
def report (line : Log.Line) : IO Unit :=
  if admits line then IO.eprintln ("[" ++ line.text ++ "]") else pure ()

/-- Write the files of a batch into a folder, then report. -/
def put (folder : String) (batch : Batch) : IO Unit := do
  for file in batch.files do
    IO.FS.writeBinFile (Folder.fileIn folder file.name) ⟨file.bytes.toArray⟩
  batch.log.forM (report admits)

/-- End with the message of an error. -/
def orFail {α : Type} : Except Error α → IO α
  | .error e => throw (IO.userError e.message)
  | .ok a => pure a

/-- Make the folder, the catalog and the files. -/
def publish (folder : String) : IO Unit := do
  if folder ≠ "" then IO.FS.createDirAll folder
  let made ← orFail Sample.construction
  made.log.forM (report admits)
  let c ← orFail made.result
  let batches ← orFail c.batches
  batches.forM (put admits folder)
  report admits (catalogLine c)

/-- Run on the folder of the arguments; `filter` reads the setting that says which lines are written. -/
def command (filter : Option String → Log.Line → Bool) (args : List String) : IO UInt32 := do
  let admits := filter (← IO.getEnv "RUST_LOG")
  try
    publish admits (folderOf args)
    return 0
  catch e =>
    IO.eprintln ("Error: " ++ toString e)
    return 1

end Multistage.Publish

open Multistage in
def main (args : List String) : IO UInt32 :=
  Publish.command (fun setting => (Log.Filter.ofSetting setting).admits) args
