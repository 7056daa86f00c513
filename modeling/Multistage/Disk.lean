import Multistage.Bundle

/-!
# Folders and files around a working folder

A disk is what a program has written: files and folders by their path.

* `Disk.enter` — the folder a text names; folders that are missing on the way are made.
* `Disk.write`, `Disk.writeAll` — files are made or replaced.
* `Disk.below` — the files below the working folder.
-/

namespace Multistage

/-- The names of the folders on the way from the working folder, and last of the folder or file.  A
path out of the working folder begins with two points for each step, and one from the root with a
slash. -/
abbrev Path := List String

namespace Path

/-- The path of the root. -/
def root : Path := ["/"]

/-- The path goes nowhere but up. -/
def isAbove (path : Path) : Bool :=
  path.all (· == "..")

/-- The folder around. -/
def parent (path : Path) : Path :=
  if path = root then path else if path.isAbove then ".." :: path else path.dropLast

/-- Most bytes of a path as it is written. -/
def maxBytes : Nat := 4095

end Path

/-- A folder, and how it was written. -/
structure Folder where
  written : String
  path : Path
  deriving DecidableEq, Repr

/-- How a file in a folder is written. -/
def Folder.fileIn (written name : String) : String :=
  if written = "" ∨ written.endsWith "/" then written ++ name else written ++ "/" ++ name

structure Disk where
  files : List (Path × List UInt8)
  folders : List Path
  deriving DecidableEq

namespace Disk

/-- There is a file under the path. -/
def isFile (d : Disk) (path : Path) : Bool :=
  d.files.any (·.1 == path)

/-- There is a folder under the path: one around the working folder, one that was made, or one that
holds a file. -/
def isFolder (d : Disk) (path : Path) : Bool :=
  path.isAbove || path == Path.root || d.folders.contains path ||
    d.files.any fun (file, _) => path.length < file.length && path.isPrefixOf file

/-- One step from a folder; one that is missing is made. -/
def step (name : String) (d : Disk) (path : Path) : Except Error (Disk × Path) :=
  if name = ".." then .ok (d, path.parent)
  else if d.isFile (path ++ [name]) || ! File.creatable name then .error .io
  else if d.isFolder (path ++ [name]) then .ok (d, path ++ [name])
  else .ok ({ d with folders := (path ++ [name]) :: d.folders }, path ++ [name])

/-- All steps of a path. -/
def steps : List String → Disk → Path → Except Error (Disk × Path)
  | [], d, path => .ok (d, path)
  | name :: rest, d, path =>
    match d.step name path with
    | .error e => .error e
    | .ok (d, path) => steps rest d path

/-- The folder a name leads to, if it is there. -/
def find (d : Disk) (name : String) (path : Path) : Except Error Path :=
  let path := if name = ".." then path.parent else path ++ [name]
  if d.isFolder path then .ok path else .error .io

/-- The folder a text names, made if it is missing.  A file on the way is an error, and so is a text
that is too long.  A point at the end asks for a folder that is there before. -/
def enter (d : Disk) (text : String) : Except Error (Disk × Folder) :=
  let names := (text.splitOn "/").filter (· ≠ "")
  let way := names.filter (· ≠ ".")
  let start := if text.startsWith "/" then Path.root else []
  if Path.maxBytes < text.utf8ByteSize then .error .io
  else
    match names.getLast? == some ".", way.getLast? with
    | true, some last =>
      match d.steps way.dropLast start with
      | .error e => .error e
      | .ok (d, path) =>
        match d.find last path with
        | .error e => .error e
        | .ok path => .ok (d, ⟨text, path⟩)
    | _, _ =>
      match d.steps way start with
      | .error e => .error e
      | .ok (d, path) => .ok (d, ⟨text, path⟩)

/-- Write a file into a folder. -/
def write (folder : Folder) (file : File) (d : Disk) : Except Error Disk :=
  let path := folder.path ++ [file.name]
  if d.isFolder path || ! File.creatable file.name ||
      Path.maxBytes < (Folder.fileIn folder.written file.name).utf8ByteSize then .error .io
  else .ok { d with files := (path, file.bytes) :: d.files.filter (·.1 != path) }

/-- Write several files into a folder, up to the first that cannot be written. -/
def writeAll (folder : Folder) : List File → Disk → Disk × Option Error
  | [], d => (d, none)
  | file :: rest, d =>
    match d.write folder file with
    | .error e => (d, some e)
    | .ok d => writeAll folder rest d

/-- The files below the working folder. -/
def below (d : Disk) : List (Path × List UInt8) :=
  d.files.filter fun (path, _) => path.head? != some ".." && path.head? != some "/"

end Disk

end Multistage
