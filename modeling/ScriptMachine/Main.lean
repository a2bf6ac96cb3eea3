/-
  ScriptMachine.Main

  The command line tool: files on the disk, the clock, and the terminal it was
  started from.
-/

import ScriptMachine.Console.Tool
import Std.Time.Zoned

namespace ScriptMachine

namespace Console

/-- The trouble of a number that the system gave; some calls give it negated. -/
def FileTrouble.ofNumber (number : UInt32) (meaning : String) : FileTrouble :=
  let code := if number < 0x80000000 then number.toNat else (0 - number).toNat
  match code with
  | 2 => missing
  | 20 => notDirectory
  | 21 => isDirectory
  | 36 => nameTooLong
  | _ => refused code meaning

/-- The trouble that an error of the system stands for. -/
def FileTrouble.ofError : IO.Error → FileTrouble
  | .noFileOrDirectory _ n details | .resourceExhausted _ n details
  | .inappropriateType _ n details | .invalidArgument _ n details
  | .permissionDenied _ n details | .alreadyExists _ n details
  | .otherError n details | .resourceBusy n details | .hardwareFault n details
  | .illegalOperation n details | .unsupportedOperation n details => ofNumber n details
  | e => refused 0 (toString e)

/-- The outcome of a step on the disk. -/
def tried {α : Type} (x : IO α) : IO (Except FileTrouble α) := do
  match ← x.toBaseIO with
  | .ok a => return .ok a
  | .error e => return .error (.ofError e)

/-- Access to the files of the disk. -/
def disk : Files IO where
  read path := tried do return (← IO.FS.readBinFile path).data
  write path bytes := tried (IO.FS.writeBinFile path ⟨bytes⟩)

/-- A number in decimal, with zeros in front up to a width. -/
def padded (width n : Nat) : String :=
  let digits := toString n
  "".pushn '0' (width - digits.length) ++ digits

/-- The local time, to the second. -/
def now : IO String := do
  let t ← Std.Time.PlainDateTime.now
  let date := [padded 4 t.year.toInt.toNat, padded 2 t.month.toNat, padded 2 t.day.toNat]
  let time := [padded 2 t.hour.toNat, padded 2 t.minute.toNat, padded 2 t.second.toNat]
  return "-".intercalate date ++ " " ++ ":".intercalate time

/-- Shows text at once. -/
def put (s : String) : IO Unit := do
  let out ← IO.getStdout
  out.putStr s
  out.flush

/-- The line without the mark at its end. -/
def withoutFeed (line : String) : String :=
  match line.toList.reverse with
  | '\n' :: '\r' :: cs | '\n' :: cs => String.ofList cs.reverse
  | _ => line

/-- Runs a session to its end.  `already` counts the characters of the next batch
that are on the screen from an earlier try. -/
partial def carryOn (cycles : Nat) (s : Session) (already : Nat) : IO (Except Error Unit) := do
  let s := { s with terminal := { s.terminal with clock := ← now } }
  let (status, shown, next) := s.batch cycles
  put (String.ofList (shown.toList.drop already))
  match status with
  | .stopped => return .ok ()
  | .failed e => return .error e
  | .running => carryOn cycles next 0
  | .waiting prompt =>
    put prompt
    let line ← (← IO.getStdin).getLine
    if line.isEmpty then
      carryOn cycles next.leave (shown.length + prompt.length)
    else
      let line := withoutFeed line
      carryOn cycles (next.type line) (shown.length + prompt.length + line.length + 1)

/-- Does the work of a command and shows what it shows. -/
def Command.execute (command : Command) : IO (Except Error Unit) := do
  let seed := (← IO.getRandomBytes 8).foldl (fun n b => n * 256 + b.toNat) 0
  let terminal : Terminal := { attended := true, generator := mkStdGen seed }
  match ← (command.perform disk terminal).run with
  | .ok (.done text) =>
    put text
    return .ok ()
  | .ok (.ready session cycles) => carryOn cycles session 0
  | .error e => return .error e

/-- What a malformed command line is answered with. -/
def usage : String :=
  "usage: compile [-o FILE] [--listing FILE] [--enum FILE]... [--def FILE]... SCRIPT...\n" ++
  "       run [--cycles N] [--enum FILE]... [--def FILE]... SCRIPT...\n" ++
  "       check [--enum FILE]... [--def FILE]... SCRIPT...\n" ++
  "       dis FILE\n"

end Console

end ScriptMachine

open ScriptMachine Console in
/-- Compiles, runs, checks and disassembles scripts. -/
def main (args : List String) : IO UInt32 := do
  match Command.ofArgs? args with
  | none =>
    (← IO.getStderr).putStr usage
    return 2
  | some command =>
    match ← command.execute with
    | .ok () => return 0
    | .error e =>
      (← IO.getStderr).putStr (bold e)
      return 1
