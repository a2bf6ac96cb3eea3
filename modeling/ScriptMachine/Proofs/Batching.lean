/-
  ScriptMachine.Proofs.Batching

  Batches do not change a run.  A run to the end takes one step after the other until
  the machine stops or fails (`Exec.Runs`); batches take as many steps as their budgets
  allow (`Machine.batches`).  A batch leaves no mark on a machine that is not interrupted,
  so a budget may be cut anywhere (`Machine.execute_add`), and batches whose budgets
  suffice end just as the run does (`Machine.batches_run`).
-/

import ScriptMachine.Proofs.Loading

namespace ScriptMachine

variable {σ : Type}

-- ============================================================================
-- Runs to the end
-- ============================================================================

namespace Exec

/-- A run to the end: step after step, until the machine stops or fails. -/
inductive Runs (host : Host σ) :
    Machine × σ → EStateM.Result Error (Machine × σ) Unit → Prop where
  | stop {w w' : Machine × σ} (h : step host w = .ok false w') : Runs host w (.ok () w')
  | fail {w w' : Machine × σ} {e : Error} (h : step host w = .error e w') :
      Runs host w (.error e w')
  | next {w w' : Machine × σ} {r : EStateM.Result Error (Machine × σ) Unit}
      (h : step host w = .ok true w') (k : Runs host w' r) : Runs host w r

variable {host : Host σ} {w w' : Machine × σ}

/-- How steps have ended a run, if they have. -/
def ended : EStateM.Result Error (Machine × σ) Bool →
    Option (EStateM.Result Error (Machine × σ) Unit)
  | .ok true w => some (.ok () w)
  | .ok false _ => none
  | .error e w => some (.error e w)

/-- A run takes a number of steps; with fewer it has not ended, and more change nothing. -/
theorem Runs.ended_steps {r : EStateM.Result Error (Machine × σ) Unit} (h : Runs host w r) :
    ∃ n, ∀ k, ended (steps host k w) = if n ≤ k then some r else none := by
  induction h with
  | stop h | fail h =>
    refine ⟨1, fun k => ?_⟩
    cases k with
    | zero => rfl
    | succ k =>
      rw [steps_succ, h, if_pos (by omega)]
      rfl
  | next h _ ih =>
    obtain ⟨n, hn⟩ := ih
    refine ⟨n + 1, fun k => ?_⟩
    cases k with
    | zero => rfl
    | succ k =>
      rw [steps_succ, h]
      simpa only [Nat.add_le_add_iff_right] using hn k

/-- Steps that end are a run to the end. -/
theorem runs_of_ended {n : Nat} {r : EStateM.Result Error (Machine × σ) Unit}
    (h : ended (steps host n w) = some r) : Runs host w r := by
  induction n generalizing w with
  | zero => cases h
  | succ n ih =>
    rw [steps_succ] at h
    cases hstep : step host w with
    | ok more v =>
      rw [hstep] at h
      cases more with
      | true => exact .next hstep (ih h)
      | false =>
        cases h
        exact .stop hstep
    | error e v =>
      rw [hstep] at h
      cases h
      exact .fail hstep

/-- Steps that did not end a run are its beginning. -/
theorem runs_iff_of_steps {n : Nat} (h : steps host n w = .ok false w')
    (r : EStateM.Result Error (Machine × σ) Unit) : Runs host w r ↔ Runs host w' r := by
  constructor
  · intro hrun
    obtain ⟨k, hk⟩ := hrun.ended_steps
    have hend := hk (n + k)
    rw [steps_add h, if_pos (by omega)] at hend
    exact runs_of_ended hend
  · intro hrun
    obtain ⟨k, hk⟩ := hrun.ended_steps
    have hend := hk k
    rw [if_pos (Nat.le_refl k), ← steps_add h] at hend
    exact runs_of_ended hend

end Exec

-- ============================================================================
-- Batches
-- ============================================================================

namespace Machine

variable {host : Host σ} {w w' : Machine × σ}

/-- The event of a batch that took these steps. -/
def eventOf : EStateM.Result Error (Machine × σ) Bool → Event × (Machine × σ)
  | .ok true w => (.stopped, w)
  | .ok false w => (.running, w)
  | .error e w => (.error e, w)

/-- A batch of a machine that is not interrupted is its steps. -/
theorem execute_eq (hw : w.1.interrupted = false) (cycles : Nat) :
    execute host cycles w = eventOf (Exec.steps host cycles w) := by
  have hclear : ({ w.1 with interrupted := false }, w.2) = w := by
    rw [← hw]
  unfold execute
  rw [hclear, hw]
  rfl

/-- Steps interrupt nothing. -/
theorem interrupted_of_steps {n : Nat} {more : Bool} (hw : w.1.interrupted = false)
    (h : Exec.steps host n w = .ok more w') : w'.1.interrupted = false := by
  have hproceeds := Exec.proceeds_steps host n w
  rw [h] at hproceeds
  rw [Bool.eq_false_iff] at hw ⊢
  exact fun hflag => hw (hproceeds.interrupted hflag)

/-- What follows a batch: another one, when the first has used up its budget. -/
def followedBy (next : Machine × σ → Event × (Machine × σ)) :
    Event × (Machine × σ) → Event × (Machine × σ)
  | (.running, w) => next w
  | r => r

/-- A budget may be cut in two.  The first part may end the run, and then it ends it for the
whole. -/
theorem execute_add (hw : w.1.interrupted = false) (a b : Nat) :
    execute host (a + b) w = followedBy (execute host b) (execute host a w) := by
  rw [execute_eq hw, execute_eq hw]
  cases ha : Exec.steps host a w with
  | ok stopped v =>
    cases stopped with
    | true => rw [Exec.steps_of_end ha (by simp) (Nat.le_add_right a b)]; rfl
    | false =>
      rw [Exec.steps_add ha]
      exact (execute_eq (interrupted_of_steps hw ha) b).symm
  | error e v => rw [Exec.steps_of_end ha (by simp) (Nat.le_add_right a b)]; rfl

/-- Batches with these budgets, one after the other, until the machine stops or fails. -/
def batches (host : Host σ) : List Nat → Machine × σ → Event × (Machine × σ)
  | [], w => (.running, w)
  | cycles :: budgets, w => followedBy (batches host budgets) (execute host cycles w)

/-- Batches are one batch with the sum of their budgets. -/
theorem batches_eq (hw : w.1.interrupted = false) (budgets : List Nat) :
    batches host budgets w = execute host budgets.sum w := by
  induction budgets generalizing w with
  | nil => exact (execute_eq hw 0).symm
  | cons cycles budgets ih =>
    rw [batches, List.sum_cons, execute_add hw, execute_eq hw]
    cases hs : Exec.steps host cycles w with
    | ok stopped v =>
      cases stopped with
      | true => rfl
      | false => exact ih (interrupted_of_steps hw hs)
    | error e v => rfl

/-- How batches have ended a run, if they have. -/
def Event.result? : Event × (Machine × σ) → Option (EStateM.Result Error (Machine × σ) Unit)
  | (.stopped, w) => some (.ok () w)
  | (.running, _) => none
  | (.error e, w) => some (.error e w)

theorem result?_eventOf (r : EStateM.Result Error (Machine × σ) Bool) :
    Event.result? (eventOf r) = Exec.ended r := by
  cases r with
  | ok stopped w => cases stopped <;> rfl
  | error e w => rfl

/-- Batches do not change a run.  A budget may be cut anywhere, and what batches with any
budgets have done is the run itself: they end with the machine, the host and the error with
which it ends, and they do so as soon as their budgets add up to its steps; until then they
have gone along its beginning. -/
theorem batches_run (host : Host σ) (w : Machine × σ) (hw : w.1.interrupted = false) :
    (∀ a b, execute host (a + b) w = followedBy (execute host b) (execute host a w)) ∧
    (∀ budgets r, Event.result? (batches host budgets w) = some r → Exec.Runs host w r) ∧
    (∀ r, Exec.Runs host w r → ∃ n, ∀ budgets,
      Event.result? (batches host budgets w) = if n ≤ budgets.sum then some r else none) ∧
    ∀ budgets w', batches host budgets w = (.running, w') →
      Exec.steps host budgets.sum w = .ok false w' ∧
      ∀ r, Exec.Runs host w r ↔ Exec.Runs host w' r := by
  have hbatches : ∀ budgets, batches host budgets w = eventOf (Exec.steps host budgets.sum w) :=
    fun budgets => (batches_eq hw budgets).trans (execute_eq hw _)
  refine ⟨execute_add hw, fun budgets r h => ?_, fun r hrun => ?_, fun budgets w' h => ?_⟩
  · rw [hbatches, result?_eventOf] at h
    exact Exec.runs_of_ended h
  · obtain ⟨n, hn⟩ := hrun.ended_steps
    refine ⟨n, fun budgets => ?_⟩
    rw [hbatches, result?_eventOf]
    exact hn budgets.sum
  · rw [hbatches] at h
    cases hs : Exec.steps host budgets.sum w with
    | ok stopped v =>
      rw [hs] at h
      cases stopped with
      | true => cases h
      | false =>
        cases h
        exact ⟨rfl, Exec.runs_iff_of_steps hs⟩
    | error e v =>
      rw [hs] at h
      cases h

/-- A machine that is about to take a step and stop. -/
def lastSteps : Machine :=
  { code := (Instruction.stream [.increment "x", .stop]).toArray, running := true }

theorem lastSteps_stop : (match Event.result? (batches Host.mute [1, 0, 1] (lastSteps, ())) with
    | some (.ok () w) => (w.1.store.fetch "x").isTruthy
    | _ => false) = true := by
  decide +kernel

/-- The end of the run falls on the edge of a batch: with the step before it used up, an
empty batch does nothing and the next one ends the run. -/
theorem lastSteps_in_batches :
    ∃ w, Exec.Runs Host.mute (lastSteps, ()) (.ok () w) ∧
      (w.1.store.fetch "x").isTruthy = true ∧
      Event.result? (batches Host.mute [1, 0] (lastSteps, ())) = none ∧
      Event.result? (batches Host.mute [1, 0, 1] (lastSteps, ())) = some (.ok () w) := by
  obtain ⟨_, hends, _⟩ := batches_run Host.mute (lastSteps, ()) rfl
  have hopen : (Event.result? (batches Host.mute [1, 0] (lastSteps, ()))).isNone = true := by
    decide +kernel
  have hstopped := lastSteps_stop
  split at hstopped
  · rename_i w hend
    exact ⟨w, hends _ _ hend, hstopped, Option.isNone_iff_eq_none.1 hopen, hend⟩
  · cases hstopped

end Machine

end ScriptMachine
