/-
  ScriptMachine.Error

  Diagnostics.  An error has a kind, a message, and the places that are known of
  it: file, line, columns, address and source text.  Places are added on the way
  outwards; file, line, address and text keep what was noted first, because the
  innermost place is the most exact one.
-/

import ScriptMachine.Text.Blank
import ScriptMachine.Text.Digits

namespace ScriptMachine

/-- Kinds of error. -/
inductive ErrorKind where
  | syntaxError | undefinedSymbol | reservedWord | stringTooLong
  | typeMismatch
  | blockMismatch | unclosedBlock | tooManyBlocks | tooManyLinks | tooManySwitches
  | illegalInChoose | blockCheck | blockBreak
  | unexpectedEnd | unexpectedTag | illegalOpcode | illegalOperator | addressOutOfRange
  | stackUnderflow
  | functionFailed | outOfMemory | interrupted
  | internalError
  deriving DecidableEq, Repr

namespace ErrorKind

/-- Number of a kind. -/
def number : ErrorKind → Nat
  | syntaxError => 2
  | undefinedSymbol => 3
  | reservedWord => 4
  | stringTooLong => 5
  | typeMismatch => 13
  | blockMismatch => 20
  | unclosedBlock => 21
  | tooManyBlocks => 22
  | tooManyLinks => 23
  | tooManySwitches => 24
  | illegalInChoose => 25
  | blockCheck => 26
  | blockBreak => 27
  | unexpectedEnd => 30
  | unexpectedTag => 31
  | illegalOpcode => 32
  | illegalOperator => 33
  | addressOutOfRange => 34
  | stackUnderflow => 35
  | functionFailed => 40
  | outOfMemory => 41
  | interrupted => 42
  | internalError => 51

/-- Words that open the text of an error. -/
def title : ErrorKind → String
  | syntaxError => "SYNTAX ERROR"
  | undefinedSymbol => "UNDEFINED SYMBOL"
  | reservedWord => "RESERVED WORD"
  | stringTooLong => "STRING TOO LONG"
  | typeMismatch => "TYPE MISMATCH"
  | blockMismatch => "BLOCK MISMATCH"
  | unclosedBlock => "UNCLOSED BLOCK"
  | tooManyBlocks => "TOO MANY BLOCKS"
  | tooManyLinks => "TOO MANY LINKS"
  | tooManySwitches => "TOO MANY CHOOSE IN IF"
  | illegalInChoose => "ILLEGAL IN CHOOSE"
  | blockCheck => "BLOCK NOT COMPLETE"
  | blockBreak => "BLOCK BREAK"
  | unexpectedEnd => "UNEXPECTED END OF CODE"
  | unexpectedTag => "UNEXPECTED TAG"
  | illegalOpcode => "ILLEGAL OPCODE"
  | illegalOperator => "ILLEGAL OPERATOR"
  | addressOutOfRange => "ADDRESS OUT OF RANGE"
  | stackUnderflow => "POP WITHOUT PUSH"
  | functionFailed => "FUNCTION FAILED"
  | outOfMemory => "OUT OF MEMORY"
  | interrupted => "INTERRUPTED"
  | internalError => "INTERNAL ERROR"

end ErrorKind

/-- A range of byte columns of a source line. -/
structure Columns where
  start : Nat
  stop : Nat
  deriving DecidableEq, Repr

/-- An error with the places known of it.  The empty columns at the start of the
line mean that no column is known. -/
structure Error where
  kind : ErrorKind
  message : String := ""
  file : Option String := none
  line : Option Nat := none
  columns : Columns := ⟨0, 0⟩
  address : Option Nat := none
  text : String := ""
  deriving DecidableEq, Repr

namespace Error

/-- Notes the file, unless one is known. -/
def inFile (e : Error) (file : String) : Error :=
  { e with file := e.file.or (some file) }

/-- Notes the line, unless one is known. -/
def onLine (e : Error) (line : Option Nat) : Error :=
  { e with line := e.line.or line }

/-- Sets the columns. -/
def inColumns (e : Error) (start stop : Nat) : Error :=
  { e with columns := ⟨start, stop⟩ }

/-- Notes the address, unless one is known. -/
def atAddress (e : Error) (address : Nat) : Error :=
  { e with address := e.address.or (some address) }

/-- Notes the trimmed source text, unless some is known. -/
def withText (e : Error) (text : String) : Error :=
  if e.text = "" then { e with text := Text.trimmed text } else e

/-- Sets the message. -/
def withMessage (e : Error) (message : String) : Error :=
  { e with message }

/-- Names the statement that failed.  The columns of a statement that was taken
out of a line do not belong to the line, so they are dropped. -/
def inFragment (e : Error) (fragment : String) : Error :=
  let place := "IN [" ++ Text.trimmed fragment ++ "]"
  { e with
    columns := ⟨0, 0⟩
    message := if e.message = "" then place else e.message ++ " " ++ place }

/-- Text of an error: title, places, message, source text. -/
def render (e : Error) : String :=
  e.kind.title
    ++ (e.file.map (" IN " ++ ·)).getD ""
    ++ (e.line.map fun n => " LINE " ++ toString n).getD ""
    ++ (if e.columns = ⟨0, 0⟩ then ""
        else " (" ++ toString e.columns.start ++ ".." ++ toString e.columns.stop ++ ")")
    ++ (e.address.map fun a => " AT " ++ Text.hexMarked a).getD ""
    ++ (if e.message = "" then "" else "; " ++ e.message)
    ++ (if e.text = "" then "" else " [" ++ e.text ++ "]")

/-! ## Small facts: adding places keeps the kind -/

@[simp] theorem kind_inFile (e : Error) (f : String) : (e.inFile f).kind = e.kind := rfl
@[simp] theorem kind_onLine (e : Error) (n : Option Nat) : (e.onLine n).kind = e.kind := rfl
@[simp] theorem kind_inColumns (e : Error) (a b : Nat) : (e.inColumns a b).kind = e.kind := rfl
@[simp] theorem kind_atAddress (e : Error) (a : Nat) : (e.atAddress a).kind = e.kind := rfl
@[simp] theorem kind_inFragment (e : Error) (s : String) : (e.inFragment s).kind = e.kind := rfl

@[simp] theorem kind_withText (e : Error) (s : String) : (e.withText s).kind = e.kind := by
  unfold withText
  split <;> rfl

end Error

end ScriptMachine
