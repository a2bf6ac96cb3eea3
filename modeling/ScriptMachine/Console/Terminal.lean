/-
  ScriptMachine.Console.Terminal

  The terminal as the host of scripts: the text it shows, the lines typed at it,
  and the native functions that scripts call there.
-/

import ScriptMachine.Machine.Host

namespace ScriptMachine

namespace Console

/-- State of the terminal. -/
structure Terminal where
  /-- The text shown so far. -/
  shown : String := ""
  /-- The lines typed and not yet read. -/
  typed : List String := []
  /-- Someone may type more lines. -/
  attended : Bool := false
  /-- The prompt of a read that found no line, while more may be typed. -/
  waiting : Option String := none
  /-- The time of day. -/
  clock : String := ""
  /-- The source of random numbers. -/
  generator : StdGen := mkStdGen

/-- The functions that every script at the terminal can call, declared ahead of
it. -/
def prelude : String :=
  "declare print s 1\n" ++
  "declare input ? 2\n" ++
  "declare random nn 3\n" ++
  "declare now . 4\n" ++
  "declare len s 5\n"

namespace Terminal

/-- A step of a native function at the terminal. -/
abbrev Act := EStateM Error (Store × Terminal)

/-- Argument of a call; a missing one is the integer 0. -/
def arg (args : List Value) (n : Nat) : Value :=
  args[n]?.getD default

/-- Shows text. -/
def display (t : Terminal) (s : String) : Terminal :=
  { t with shown := t.shown ++ s }

/-- Shows text and ends the line. -/
def print (s : String) : Act Value := fun (store, t) =>
  .ok default (store, t.display (s ++ "\n"))

/-- Reads a typed line.  The line stands behind the prompt; without one the line
of the prompt ends and the read fails. -/
def input (prompt : String) : Act Value := fun (store, t) =>
  match t.typed with
  | line :: typed => .ok (.str line) (store, { t with typed }.display (prompt ++ line ++ "\n"))
  | [] =>
    if t.attended then .error (.of .inputEnded) (store, { t with waiting := some prompt })
    else .error (.of .inputEnded) (store, t.display (prompt ++ "\n"))

/-- A random number between two bounds, which belong to the range; the lower one
when the range holds no other. -/
def random (low high : Int64) : Act Value := fun (store, t) =>
  if high ≤ low then .ok (.int low) (store, t)
  else
    let (n, generator) := randNat t.generator 0 (high.toInt - low.toInt).toNat
    .ok (.int (low + Int64.ofNat n)) (store, { t with generator })

/-- The integer of an argument. -/
def integer (v : Value) : Act Int64 := fun w =>
  match v.toInteger with
  | .ok n => .ok n w
  | .error e => .error e w

/-- The prompt that an argument asks for. -/
def promptOf : Value → String
  | .str s => s
  | _ => "? "

/-- The native functions of the terminal. -/
def natives : Natives Terminal where
  find?
    | 1 => some fun args => print (arg args 0).toText
    | 2 => some fun args => input (promptOf (arg args 0))
    | 3 => some fun args => do random (← integer (arg args 0)) (← integer (arg args 1))
    | 4 => some fun _ => return .str (← get).2.clock
    | 5 => some fun args => return .int (Int64.ofNat (arg args 0).toText.length)
    | _ => none

end Terminal

end Console

end ScriptMachine
