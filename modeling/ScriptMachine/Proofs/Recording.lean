/-
  ScriptMachine.Proofs.Recording

  A host that remembers its calls.  `Host.recorded` passes every call on to a host and
  keeps what was passed.  It answers as the host itself (`Host.alike_recorded`), so forgetting
  the record gives back the run of that host, step by step (`Exec.steps_recorded`) and in a
  scan (`Machine.scan_recorded`).  What is shown of the record is therefore true of the calls
  that the host receives.
-/

import ScriptMachine.Proofs.SideBySide

namespace ScriptMachine

variable {σ : Type}

/-- What the null variable is read as: its value in a run, and the integer 0 in a scan,
where every expression counts as 0. -/
def Mode.null (mode : Mode) (store : Store) : Value :=
  match mode with
  | .run => store.fetch nullName
  | .scan => default

namespace Host

/-- A call that a host received: the function, the arguments, and what the null
variable was read as at that time. -/
structure Call where
  code : UInt16
  args : List Value
  null : Value

/-- The host with a record of its calls, the last one first. -/
def recorded (host : Host σ) : Host (σ × List Call) where
  call code args := fun (store, s, log) =>
    let log := ⟨code, args, Mode.run.null store⟩ :: log
    match host.call code args (store, s) with
    | .ok v (store, s) => .ok v (store, s, log)
    | .error e (store, s) => .error e (store, s, log)
  check code args := fun (s, log) =>
    let log := ⟨code, args, Mode.scan.null .initial⟩ :: log
    match host.check code args s with
    | .ok v s => .ok v (s, log)
    | .error e s => .error e (s, log)
  report message := fun (s, log) => (host.report message s, log)

end Host

/-- The state in which a step ends, well or not. -/
def Exec.finalState {α : Type} : EStateM.Result Error (Machine × σ) α → Machine × σ
  | .ok _ w => w
  | .error _ w => w

-- ============================================================================
-- Forgetting the record
-- ============================================================================

section
variable {ρ τ ε α : Type}

/-- The result without the last part of its state. -/
def forget : EStateM.Result ε (ρ × σ × τ) α → EStateM.Result ε (ρ × σ) α
  | .ok a (r, s, _) => .ok a (r, s)
  | .error e (r, s, _) => .error e (r, s)

/-- Where the states match up to a part that is forgotten, so do the results. -/
theorem Matches.forget {W : ρ × σ × τ → ρ × σ → Prop} {r : EStateM.Result ε (ρ × σ × τ) α}
    {r' : EStateM.Result ε (ρ × σ) α} (h : Matches W Eq r r')
    (hW : ∀ w w', W w w' → w' = (w.1, w.2.1)) : ScriptMachine.forget r = r' := by
  cases h with
  | ok ha hw =>
    obtain rfl := hW _ _ hw
    cases ha
    rfl
  | error e hw =>
    obtain rfl := hW _ _ hw
    rfl

end

/-- A host with a record answers as it does without. -/
theorem Host.alike_recorded (host : Host σ) (mode : Mode) :
    host.recorded.Alike mode (fun s s' => s.1 = s') host where
  call _ code args := by
    rintro ⟨store, s, log⟩ ⟨_, _⟩ ⟨rfl, rfl⟩
    simp only [recorded]
    cases host.call code args (store, s) with
    | ok v w => exact .ok rfl ⟨rfl, rfl⟩
    | error e w => exact .error e ⟨rfl, rfl⟩
  check _ code args := by
    rintro ⟨s, log⟩ _ rfl
    simp only [recorded]
    cases host.check code args s with
    | ok v s => exact .ok rfl rfl
    | error e s => exact .error e rfl
  report text := by
    rintro ⟨s, log⟩ _ rfl
    rfl

section
variable (host : Host σ)

/-- The machine and its host, in front of a step with the record and without. -/
theorem Exec.paired_recorded (m : Machine) (s : σ) (log : List Host.Call) :
    Paired m.mode Eq (fun s s' => s.1 = s') (m, s, log) (m, s) :=
  ⟨rfl, ⟨_, rfl, rfl⟩, rfl⟩

theorem Machine.eq_of_twins {w : Machine × σ × List Host.Call} {w' : Machine × σ}
    (h : Joint (Machine.Twins Eq) (fun s s' => s.1 = s') w w') : w' = (w.1, w.2.1) := by
  obtain ⟨m, s, log⟩ := w
  obtain ⟨_, _⟩ := w'
  obtain ⟨⟨_, rfl, rfl⟩, rfl⟩ := h
  rfl

theorem Exec.forgets_step (m : Machine) (s : σ) (log : List Host.Call) :
    forget (step host.recorded (m, s, log)) = step host (m, s) :=
  (sideBySide_step (Mode.shares_eq _) (host.alike_recorded _) _ _
    (paired_recorded m s log)).forget fun _ _ hw => Machine.eq_of_twins hw.2

/-- Recording the calls does not change a run. -/
theorem Exec.steps_recorded (n : Nat) (m : Machine) (s : σ) (log : List Host.Call) :
    forget (steps host.recorded n (m, s, log)) = steps host n (m, s) :=
  (sideBySide_steps (Mode.shares_eq _) (host.alike_recorded _) n _ _
    (paired_recorded m s log)).forget fun _ _ hw => Machine.eq_of_twins hw.2

/-- Recording the calls does not change a scan. -/
theorem Machine.scan_recorded (c : Code) (p : Nat) (m : Machine) (s : σ)
    (log : List Host.Call) :
    forget (scan host.recorded c p (m, s, log)) = scan host c p (m, s) :=
  (sideBySide_scan (host.alike_recorded .scan) c p (m, s, log) (m, s)
    ⟨⟨_, rfl, rfl⟩, rfl⟩).forget fun _ _ => eq_of_twins

end

end ScriptMachine
