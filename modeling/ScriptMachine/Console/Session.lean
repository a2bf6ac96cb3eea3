/-
  ScriptMachine.Console.Session

  A program that runs at the terminal, batch after batch.  A batch in which the
  program asks for a line that nobody has typed yet counts as not run: it is run
  again once the line is there.
-/

import ScriptMachine.Console.Terminal
import ScriptMachine.Machine.Run

namespace ScriptMachine

namespace Console

/-- A machine at a terminal. -/
structure Session where
  machine : Machine
  terminal : Terminal

/-- How a batch ended. -/
inductive Status where
  | stopped
  | running
  | failed (e : Error)
  /-- The program waits for a line behind a prompt. -/
  | waiting (prompt : String)

namespace Session

/-- Starts a program. -/
def start (code : Code) (terminal : Terminal) : Except Error Session :=
  match Machine.start code 0 false {} with
  | .ok () machine => .ok { machine, terminal }
  | .error e _ => .error e

/-- Runs a batch: how it ended, the text it showed and where the program goes
on. -/
def batch (cycles : Nat) (s : Session) : Status × String × Session :=
  let (event, machine, terminal, _) :=
    Machine.execute Terminal.natives.host cycles (s.machine, s.terminal, #[])
  match terminal.waiting with
  | some prompt => (.waiting prompt, terminal.shown, s)
  | none =>
    let next : Session := { machine, terminal := { terminal with shown := "" } }
    match event with
    | .stopped => (.stopped, terminal.shown, next)
    | .running => (.running, terminal.shown, next)
    | .error e => (.failed e, terminal.shown, next)

/-- Types a line. -/
def type (s : Session) (line : String) : Session :=
  { s with terminal := { s.terminal with typed := s.terminal.typed ++ [line] } }

/-- Ends the typing. -/
def leave (s : Session) : Session :=
  { s with terminal := { s.terminal with attended := false } }

end Session

end Console

end ScriptMachine
