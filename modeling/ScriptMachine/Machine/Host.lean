/-
  ScriptMachine.Machine.Host

  The world around the machine.  Every call of a script goes to its host, which
  has a state of its own and may change the variables; a scan asks the host only
  whether it would take the call.  A registry of native functions makes a host.
-/

import ScriptMachine.Machine.Store

namespace ScriptMachine

/-- A host with state `σ`. -/
structure Host (σ : Type) where
  /-- Runs a function on arguments. -/
  call : UInt16 → List Value → EStateM Error (Store × σ) Value
  /-- Takes the place of `call` in a scan; the variables are out of its reach. -/
  check : UInt16 → List Value → EStateM Error σ Value := fun _ _ => pure default
  /-- Receives the text of every error of a run. -/
  report : String → σ → σ := fun _ s => s

/-- A native function. -/
abbrev Native (σ : Type) := List Value → EStateM Error (Store × σ) Value

/-- A registry of native functions. -/
structure Natives (σ : Type) where
  find? : UInt16 → Option (Native σ)

namespace Natives

variable {σ : Type}

/-- The function is registered. -/
def contains (n : Natives σ) (code : UInt16) : Bool :=
  (n.find? code).isSome

/-- The host that runs the functions of a registry and keeps the reports.  It
fails on a function that is not registered, in a run and in a scan. -/
def host (n : Natives σ) : Host (σ × Array String) where
  call code args := fun (store, s, reports) =>
    match n.find? code with
    | none => .error (.of (.noNative code)) (store, s, reports)
    | some f =>
      match f args (store, s) with
      | .ok v (store, s) => .ok v (store, s, reports)
      | .error e (store, s) => .error e (store, s, reports)
  check code _ := fun s =>
    if n.contains code then .ok default s else .error (.of (.noNative code)) s
  report message := fun (s, reports) => (s, reports.push message)

end Natives

end ScriptMachine
