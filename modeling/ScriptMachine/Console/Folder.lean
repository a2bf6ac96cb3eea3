/-
  ScriptMachine.Console.Folder

  Files held in memory.  The commands of the tool work on a folder as they do on
  a disk: the same paths lead to the same files and the same troubles.

  A path is a list of steps between slashes, followed from the folder or, behind
  a leading slash, from the root of the disk.  Each step needs a directory to
  start from.  Of the disk outside the folder only the directories that every
  system has and the null device are known; other names are free there, and what
  is written to them is out of sight.
-/

import ScriptMachine.Console.Files
import Std.Data.TreeMap

namespace ScriptMachine

namespace Console

/-- Files by their names; a name is a path without detours, and the directories
are those that files lie in. -/
structure Folder where
  files : Std.TreeMap String (Array UInt8) := ∅

namespace Folder

/-! ## Directories -/

/-- A directory on a path; a way lists its last step first. -/
inductive Directory where
  /-- In the folder, or the folder itself. -/
  | inside (way : List String)
  /-- Somewhere above the folder. -/
  | above
  /-- At the end of a way from the root of the disk. -/
  | rooted (way : List String)
  deriving DecidableEq, Repr

/-- The directory that a directory lies in; the root lies in itself. -/
def Directory.parent : Directory → Directory
  | inside [] => above
  | inside (_ :: way) => inside way
  | above => above
  | rooted way => rooted way.tail

/-- Where a path leads. -/
inductive Place where
  | directory (d : Directory)
  | file (name : String)
  /-- A directory of the folder has room for a file of that name. -/
  | vacant (name : String)
  /-- A directory outside the folder has room for a file. -/
  | outside
  /-- The device that is always empty and drops what it gets. -/
  | null
  | nowhere (t : FileTrouble)

/-- The directory at a place, to go on from there. -/
def Place.directory? : Place → Except FileTrouble Directory
  | directory d => .ok d
  | file _ => .error .notDirectory
  | vacant _ => .error .missing
  | outside => .error .missing
  | null => .error .notDirectory
  | nowhere t => .error t

/-! ## Paths -/

/-- The longest name of a file, in bytes. -/
def maxName : Nat := 255

/-- The longest path, in bytes. -/
def maxPath : Nat := 4095

/-- The directories right under the root that every system has. -/
def rootDirectories : List String :=
  ["bin", "boot", "dev", "etc", "home", "lib", "media", "mnt", "opt", "proc", "root", "run",
    "sbin", "srv", "sys", "tmp", "usr", "var"]

/-- Name of the file at the end of a way. -/
def nameOf (way : List String) : String :=
  "/".intercalate way.reverse

/-- Some file lies in the directory at the end of a way. -/
def hasDirectory (f : Folder) (way : List String) : Bool :=
  let stem := (nameOf way ++ "/").toList
  f.files.keys.any fun name => stem.isPrefixOf name.toList

/-- What has a name in a directory. -/
def named (f : Folder) (name : String) : Directory → Place
  | .inside way =>
    let way := name :: way
    if f.hasDirectory way then .directory (.inside way)
    else if f.files.contains (nameOf way) then .file (nameOf way)
    else .vacant (nameOf way)
  | .above => .outside
  | .rooted [] => if name ∈ rootDirectories then .directory (.rooted [name]) else .outside
  | .rooted way => if way = ["dev"] ∧ name = "null" then .null else .outside

/-- Where one step leads from a directory.  No step and a single dot stay there,
two dots lead out of it. -/
def step (f : Folder) (d : Directory) (name : String) : Place :=
  if name = "" ∨ name = "." then .directory d
  else if name = ".." then .directory d.parent
  else if maxName < name.utf8ByteSize then .nowhere .nameTooLong
  else f.named name d

/-- Goes one step further from the directory at a place. -/
def advance (f : Folder) (place : Place) (name : String) : Place :=
  match place.directory? with
  | .ok d => f.step d name
  | .error t => .nowhere t

/-- Where steps lead from a directory. -/
def follow (f : Folder) (d : Directory) (steps : List String) : Place :=
  steps.foldl f.advance (.directory d)

/-- The directory that a path starts from. -/
def start (path : String) : Directory :=
  if path.toList.head? = some '/' then .rooted [] else .inside []

/-- The trouble of a path that cannot be followed at all. -/
def unusable? (path : String) : Option FileTrouble :=
  if path = "" then some .missing
  else if maxPath < path.utf8ByteSize then some .nameTooLong
  else none

/-! ## Reading and writing -/

/-- Reads a file. -/
def read (f : Folder) (path : String) : Except FileTrouble (Array UInt8) :=
  match unusable? path with
  | some t => .error t
  | none =>
    match f.follow (start path) (path.splitOn "/") with
    | .directory _ => .error .isDirectory
    | .file name => .ok ((f.files[name]?).getD #[])
    | .vacant _ => .error .missing
    | .outside => .error .missing
    | .null => .ok #[]
    | .nowhere t => .error t

/-- The steps of a path without slashes at its end. -/
def bareSteps (path : String) : List String :=
  let cs := (path.toList.reverse.dropWhile (· = '/')).reverse
  (String.ofList cs).splitOn "/"

/-- Replaces a file or makes a new one.  The last step of a path that ends in a
slash can only be a directory, whatever has that name. -/
def write (f : Folder) (path : String) (bytes : Array UInt8) : Except FileTrouble Folder :=
  match unusable? path with
  | some t => .error t
  | none =>
    if path.toList.getLast? = some '/' then
      (f.follow (start path) (bareSteps path).dropLast).directory?.bind fun _ =>
        .error .isDirectory
    else
      match f.follow (start path) (path.splitOn "/") with
      | .directory _ => .error .isDirectory
      | .file name => .ok { f with files := f.files.insert name bytes }
      | .vacant name => .ok { f with files := f.files.insert name bytes }
      | .outside => .ok f
      | .null => .ok f
      | .nowhere t => .error t

/-- Access to the files of a folder. -/
def access : Files (StateM Folder) where
  read path := fun f => (f.read path, f)
  write path bytes := fun f =>
    match f.write path bytes with
    | .ok g => (.ok (), g)
    | .error t => (.error t, f)

/-- The files that are new since an earlier state of the folder or have other
contents, in the order of their names. -/
def changes (before now : Folder) : List (String × Array UInt8) :=
  now.files.toList.filter fun (name, bytes) => before.files[name]? ≠ some bytes

/-! ## Small facts -/

/-- Once there is trouble on a path, it stays. -/
theorem foldl_advance_nowhere (f : Folder) (t : FileTrouble) (steps : List String) :
    steps.foldl f.advance (.nowhere t) = .nowhere t := by
  induction steps with
  | nil => rfl
  | cons name steps ih => exact ih

/-- A single dot leads nowhere else. -/
theorem follow_dot (f : Folder) (d : Directory) (steps : List String) :
    f.follow d ("." :: steps) = f.follow d steps := by
  simp [follow, advance, step, Place.directory?]

/-- Two dots in front of the other steps leave the folder. -/
theorem follow_dots (f : Folder) (steps : List String) :
    f.follow (.inside []) (".." :: steps) = f.follow .above steps := by
  simp [follow, advance, step, Place.directory?, Directory.parent]

end Folder

end Console

end ScriptMachine
