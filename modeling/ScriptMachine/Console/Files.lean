/-
  ScriptMachine.Console.Files

  The files that the commands of the tool read and write, and the names of those
  files.  `Files` leaves open where they are: on a disk, or in memory.
-/

import ScriptMachine.Cause

namespace ScriptMachine

namespace Console

/-- Why a file could not be used. -/
inductive FileTrouble where
  /-- The system refused, by a number and its meaning. -/
  | refused (code : Nat) (meaning : String)
  /-- The file is not UTF-8. -/
  | notText

namespace FileTrouble

/-- Nothing has that name. -/
def missing : FileTrouble := refused 2 "No such file or directory"

/-- A name on the way is not a directory. -/
def notDirectory : FileTrouble := refused 20 "Not a directory"

/-- The name is a directory. -/
def isDirectory : FileTrouble := refused 21 "Is a directory"

/-- A name or a path is longer than the system allows. -/
def nameTooLong : FileTrouble := refused 36 "File name too long"

/-- Wording of a trouble. -/
def message : FileTrouble → String
  | refused code meaning => meaning ++ " (os error " ++ toString code ++ ")"
  | notText => "stream did not contain valid UTF-8"

/-- The error of a trouble with the file at a path. -/
def error (path : String) (t : FileTrouble) : Error :=
  .of (.fileTrouble path t.message)

end FileTrouble

/-- Access to files by their paths. -/
structure Files (m : Type → Type) where
  read : String → m (Except FileTrouble (Array UInt8))
  write : String → Array UInt8 → m (Except FileTrouble Unit)

namespace Files

variable {m : Type → Type} [Monad m]

/-- The bytes of a file. -/
def bytes (files : Files m) (path : String) : ExceptT Error m (Array UInt8) :=
  ExceptT.mk do return (← files.read path).mapError (FileTrouble.error path)

/-- The text of a file. -/
def text (files : Files m) (path : String) : ExceptT Error m String := do
  match String.fromUTF8? ⟨← files.bytes path⟩ with
  | some s => return s
  | none => throw (FileTrouble.notText.error path)

/-- Puts bytes into a file. -/
def put (files : Files m) (path : String) (bytes : Array UInt8) : ExceptT Error m Unit :=
  ExceptT.mk do return (← files.write path bytes).mapError (FileTrouble.error path)

end Files

/-! ## Names -/

/-- A file name up to its last dot; a dot that opens the name does not count. -/
def stem (name : List Char) : List Char :=
  match name.reverse.dropWhile (· ≠ '.') with
  | '.' :: c :: cs => (c :: cs).reverse
  | _ => name

/-- The path with another extension in its last name.  A last name such as `..x`
becomes `..` when its extension goes; that is a directory and takes no other. -/
def withExtension (extension path : String) : String :=
  let cs := path.toList
  let name := (cs.reverse.takeWhile (· ≠ '/')).reverse
  let before := cs.take (cs.length - name.length)
  if stem name = ['.'] then String.ofList (before ++ ['.', '.'])
  else String.ofList (before ++ stem name) ++ "." ++ extension

/-! ## Small facts -/

theorem stem_append_extension {name extension : List Char} (hn : name ≠ [])
    (he : '.' ∉ extension) : stem (name ++ '.' :: extension) = name := by
  have hd : (extension.reverse ++ '.' :: name.reverse).dropWhile (· ≠ '.') =
      '.' :: name.reverse := by
    rw [List.dropWhile_append_of_pos]
    · simp
    · intro c hc
      have : c ≠ '.' := fun h => he (h ▸ List.mem_reverse.1 hc)
      simpa using this
  obtain ⟨c, cs, hcs⟩ := List.exists_cons_of_ne_nil (List.reverse_ne_nil_iff.2 hn)
  have hr : (name ++ '.' :: extension).reverse = extension.reverse ++ '.' :: name.reverse := by
    simp
  unfold stem
  rw [hr, hd, hcs]
  show (c :: cs).reverse = name
  rw [← hcs, List.reverse_reverse]

end Console

end ScriptMachine
