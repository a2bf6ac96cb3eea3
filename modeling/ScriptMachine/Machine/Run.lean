/-
  ScriptMachine.Machine.Run

  Running the machine: one instruction at a time, in batches, or as a scan.  A
  batch ends because the program stopped, because an error occurred, or because
  its budget of instructions is used up; the last is not an end of the run, and
  the next batch goes on where it left off.
-/

import ScriptMachine.Machine.Basic

namespace ScriptMachine

namespace Exec

variable {σ α : Type}

/-! ## Steps on parts of the state -/

/-- Reads from the stream at the machine's position. -/
def read (f : (c : Code) → (position : Nat) → c.Read α position) : Exec σ α := fun (m, s) =>
  match f m.code m.position with
  | .ok (a, p) => .ok a ({ m with position := p }, s)
  | .error e => .error e.error ({ m with position := e.position }, s)

/-- Values an expression at the machine's position. -/
def evaluate
    (f : (mode : Mode) → (c : Code) → (position : Nat) → Eval σ (Value × c.Past position)) :
    Exec σ Value := fun (m, s) =>
  match f m.mode m.code m.position (m.store, s) with
  | .ok (v, p) (store, s) => .ok v ({ m with position := p, store }, s)
  | .error e (store, s) => .error e.error ({ m with position := e.position, store }, s)

/-- Changes the machine. -/
def change (f : Machine → Except Error Machine) : Exec σ Unit := fun (m, s) =>
  match f m with
  | .ok m => .ok () (m, s)
  | .error e => .error e (m, s)

/-- Changes the machine, unless it scans. -/
def effect (f : Machine → Except Error Machine) : Exec σ Unit :=
  change fun m => if m.mode = .scan then .ok m else f m

/-- A step on the stack, unless the machine scans. -/
def onStack (x : EStateM Error (Stack Value) α) (skipped : α) : Exec σ α := fun (m, s) =>
  if m.mode = .scan then .ok skipped (m, s)
  else
    match x m.stack with
    | .ok a stack => .ok a ({ m with stack }, s)
    | .error e stack => .error e ({ m with stack }, s)

/-! ## Instructions -/

/-- Goes to an address, unless jumps are off. -/
def jump (address : Int64) : Exec σ Unit :=
  change fun m =>
    if m.mode = .scan ∨ m.gotoLock then .ok m
    else if address.toInt < 0 then .error (.of (.negativeAddress address.toInt))
    else return { m with position := ← m.code.seek address.toInt.toNat }

/-- Stores in a variable what `f` makes of its value and an expression. -/
def assign (host : Host σ) (f : Value → Value → Except Error Value) : Exec σ Unit := do
  let name ← read Code.taggedName
  let v ← evaluate (Eval.expression host)
  effect fun m => do m.setVariable name (← f (m.store.fetch name) v)

/-- Stores in a variable what `f` makes of its value. -/
def update (f : Value → Value) : Exec σ Unit := do
  let name ← read Code.taggedName
  effect fun m => m.setVariable name (f (m.store.fetch name))

/-- Executes one instruction; false when it is the last. -/
def instruction (host : Host σ) : Exec σ Bool := do
  match ← read Code.opcode with
  | .stop =>
    change fun m => .ok { m with running := false }
    return false
  | .mov => assign host fun _ v => .ok v
  | .add => assign host Value.sum
  | .sub => assign host Value.subtract
  | .mul => assign host Value.multiply
  | .div => assign host Value.divide
  | .mod => assign host Value.modulo
  | .inc => update Value.increment
  | .dec => update Value.decrement
  | .cmp =>
    let v ← evaluate (Eval.expression host)
    let address ← read Code.taggedNumber
    if !v.isTruthy then jump address
  | .case =>
    let v ← evaluate (Eval.expression host)
    let address ← read Code.taggedNumber
    let (m, _) ← get
    if m.mode = .run then
      match Value.same v (m.store.fetch caseName) with
      | .ok true => pure ()
      | .ok false => jump address
      | .error e => throw e
  | .goto => jump (← read Code.taggedNumber)
  | .func =>
    let _ ← evaluate (Eval.call host)
  | .push =>
    let name ← read Code.taggedName
    let v := (← get).1.store.fetch name
    onStack (Stack.push v) ()
  | .pop =>
    let name ← read Code.taggedName
    let v ← onStack Stack.pop default
    effect fun m => m.setVariable name v
  return true

/-- Stops the machine with an error and reports it to the host. -/
def halt {α : Type} (host : Host σ) (e : Error) : Exec σ α := fun (m, s) =>
  .error e ({ m with running := false }, host.report e.render s)

/-- Executes the next instruction of a running machine; false when the machine
does not run or stops.  Errors without an address get that of the instruction. -/
def step (host : Host σ) : Exec σ Bool := fun (m, s) =>
  if m.running then
    let start := m.position
    match instruction host (m, s) with
    | .ok more w => .ok more w
    | .error e w => halt host (e.atAddress start) w
  else .ok false (m, s)

/-- Executes up to `budget` instructions; true when the machine stopped. -/
def steps (host : Host σ) : (budget : Nat) → Exec σ Bool
  | 0 => return false
  | budget + 1 => do
    if ← step host then steps host budget else return true

end Exec

namespace Machine

variable {σ : Type}

/-! ## Batches -/

/-- How a batch ended. -/
inductive Event where
  | stopped
  | running
  | error (e : Error)

/-- Runs a batch of at most `cycles` instructions.  A pending interrupt ends it
at once. -/
def execute (host : Host σ) (cycles : Nat) (w : Machine × σ) : Event × (Machine × σ) :=
  let x : Exec σ Bool :=
    if w.1.interrupted then
      Exec.halt host ((Error.of .interrupted).atAddress w.1.position)
    else Exec.steps host cycles
  match x ({ w.1 with interrupted := false }, w.2) with
  | .ok true w => (.stopped, w)
  | .ok false w => (.running, w)
  | .error e w => (.error e, w)

/-- Walks from a position to the first `stop`: variables and stack are left
alone, jumps fall through and calls are only checked.  Every step takes at least
two bytes, so the budget suffices. -/
def scan (host : Host σ) (code : Code) (position : Nat) : Exec σ Unit := fun (m, s) =>
  match load code position m with
  | .error e m => .error e (m, s)
  | .ok () m =>
    match Exec.steps host (code.size + 1) ({ m with mode := .scan, running := true }, s) with
    | .ok _ (m, s) => .ok () ({ m with mode := .run, running := false }, s)
    | .error e (m, s) => .error e ({ m with mode := .run, running := false }, s)

end Machine

end ScriptMachine
