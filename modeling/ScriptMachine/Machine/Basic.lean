/-
  ScriptMachine.Machine.Basic

  The machine: the instruction stream it runs, its position, its flags, its
  stack and its variables; and how a run is prepared.
-/

import ScriptMachine.Machine.Evaluation
import ScriptMachine.Stack

namespace ScriptMachine

/-- The state of the machine. -/
structure Machine where
  code : Code := #[]
  position : Nat := 0
  mode : Mode := .run
  /-- Jumps fall through. -/
  gotoLock : Bool := false
  running : Bool := false
  /-- The next batch stops with an error. -/
  interrupted : Bool := false
  stack : Stack Value := ⟨"STACK OVERFLOW", "POP WITHOUT PUSH", #[]⟩
  store : Store := .initial

/-- A step of the machine together with its host. -/
abbrev Exec (σ : Type) := EStateM Error (Machine × σ)

namespace Machine

/-- Loads a stream and goes to a position in it.  The stream stays loaded when
the position lies outside. -/
def load (code : Code) (position : Nat) : EStateM Error Machine Unit := fun m =>
  let m := { m with code, position := 0 }
  match code.seek position with
  | .ok position => .ok () { m with position }
  | .error e => .error e m

/-- Prepares a run from a position: no variables, an empty stack. -/
def start (code : Code) (position : Nat) (gotoLock : Bool) : EStateM Error Machine Unit := do
  load code position
  modify fun m =>
    { m with
      store := .initial
      stack := m.stack.clear
      mode := .run
      gotoLock
      running := true
      interrupted := false }

/-- Asks the next batch to stop. -/
def interrupt (m : Machine) : Machine :=
  { m with interrupted := true }

/-- Stores a variable from outside. -/
def setVariable (m : Machine) (name : String) (v : Value) : Except Error Machine :=
  return { m with store := ← m.store.store name v }

end Machine

end ScriptMachine
