/-
  ScriptMachine.Stream.Listing

  The listing of a compile run: a readable record of what is written, one line
  per instruction behind its address, with comments in between.
-/

import ScriptMachine.Text.Blank
import ScriptMachine.Text.Digits

namespace ScriptMachine

/-- The text of a listing; one that is switched off stays empty. -/
structure Listing where
  enabled : Bool := true
  text : String := ""
  deriving DecidableEq

namespace Listing

/-- Appends text as it is. -/
def put (l : Listing) (s : String) : Listing :=
  if l.enabled then { l with text := l.text ++ s } else l

/-- Opens the line of an address. -/
def line (l : Listing) (address : Nat) : Listing :=
  l.put ("\n" ++ Text.hexPadded ' ' 6 address ++ ": ")

/-- Appends a comment line. -/
def comment (l : Listing) (s : String) : Listing :=
  l.put ("\n// " ++ s)

/-- Appends an error line. -/
def error (l : Listing) (s : String) : Listing :=
  l.put ("\n// ERROR " ++ s)

/-- The listing without the blanks in front of it. -/
def shown (l : Listing) : String :=
  String.ofList (Text.trimStart l.text.toList)

end Listing

end ScriptMachine
