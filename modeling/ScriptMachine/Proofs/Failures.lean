/-
  ScriptMachine.Proofs.Failures

  How a run fails.  Whatever stream a run was started in, the step that fails reports its
  error once and leaves nothing behind but what the calls of its instruction did
  (`Machine.step_fails_cleanly`); after that the machine is idle until it is started again.
-/

import ScriptMachine.Proofs.Outcomes

namespace ScriptMachine

variable {σ : Type}

-- ============================================================================
-- Calls of a host
-- ============================================================================

namespace Host

/-- The errors of the calls have no address. -/
def Unplaced (host : Host σ) : Prop :=
  ∀ code args w e w', host.call code args w = .error e w' → e.address = none

/-- What calls, the last one first, make of the variables and of the state of the host. -/
def made (host : Host σ) (calls : List Call) (w : Store × σ) : Store × σ :=
  calls.foldr (fun call w =>
    match host.call call.code call.args w with
    | .ok _ w => w
    | .error _ w => w) w

theorem Unplaced.recorded {host : Host σ} (h : host.Unplaced) : host.recorded.Unplaced := by
  rintro code args ⟨store, s, log⟩ e w' he
  simp only [Host.recorded] at he
  cases hr : host.call code args (store, s) with
  | ok v w =>
    rw [hr] at he
    cases he
  | error e' w =>
    rw [hr] at he
    cases he
    exact h code args _ _ _ hr

/-- A failed function has the address that the host gave its error, any other error of the
host is hidden behind one that has none. -/
theorem Unplaced.errsAt {host : Host σ} (h : host.Unplaced) (A : Nat → Prop) :
    host.ErrsAt .run A := by
  rintro code args p ⟨store, s⟩ f w' hf a ha
  unfold Eval.invoke at hf
  dsimp only at hf
  cases hr : host.call code args (store, s) with
  | ok v w =>
    rw [hr] at hf
    cases hf
  | error e w =>
    rw [hr] at hf
    cases hf
    unfold Eval.callError at ha
    dsimp only at ha
    split at ha
    · rw [h code args _ _ _ hr] at ha
      cases ha
    · cases ha

/-- A call is recorded together with what it made. -/
theorem made_of_asksOnce {host : Host σ} {w w' : Store × σ × List Call}
    (h : host.recorded.AsksOnce .run w w') :
    ∃ call, w'.2.2 = call :: w.2.2 ∧ (w'.1, w'.2.1) = host.made [call] (w.1, w.2.1) := by
  obtain ⟨store, s, log⟩ := w
  obtain ⟨code, args, p, rfl⟩ := h
  refine ⟨⟨code, args, Mode.run.null store⟩, ?_⟩
  simp only [Eval.invoke, recorded, made, List.foldr]
  cases host.call code args (store, s) with
  | ok v w => exact ⟨rfl, rfl⟩
  | error e w => exact ⟨rfl, rfl⟩

/-- The record of a run is the list of the calls that made its variables. -/
theorem made_of_asks {host : Host σ} {w w' : Store × σ × List Call}
    (h : host.recorded.Asks .run w w') :
    ∃ calls, w'.2.2 = calls ++ w.2.2 ∧ (w'.1, w'.2.1) = host.made calls (w.1, w.2.1) := by
  induction h with
  | refl => exact ⟨[], rfl, rfl⟩
  | tail _ honce ih =>
    obtain ⟨calls, hlog, hmade⟩ := ih
    obtain ⟨call, hlog', hmade'⟩ := made_of_asksOnce honce
    refine ⟨call :: calls, by rw [hlog', hlog, List.cons_append], ?_⟩
    rw [hmade', hmade]
    rfl

end Host

-- ============================================================================
-- Requests to a machine
-- ============================================================================

namespace Machine

/-- A request that a machine may get, each with a host of its own, other than a start that
goes well; and what may become of its variables in between. -/
inductive Served : Machine → Machine → Prop where
  | startRefused {m m' c p lock e} (h : start c p lock m = .error e m') : Served m m'
  | scan {m} {τ : Type} (host : Host τ) (c : Code) (p : Nat) (t : τ) :
      Served m (Exec.finalState (scan host c p (m, t))).1
  | step {m} {τ : Type} (host : Host τ) (t : τ) :
      Served m (Exec.finalState (Exec.step host (m, t))).1
  | run {m} {τ : Type} (host : Host τ) (t : τ) (n : Nat) :
      Served m (Exec.finalState (Exec.steps host n (m, t))).1
  | execute {m} {τ : Type} (host : Host τ) (t : τ) (cycles : Nat) :
      Served m (execute host cycles (m, t)).2.1
  | interrupt {m} : Served m m.interrupt
  | store {m} (store : Store) : Served m { m with store }

/-- Any number of requests. -/
abbrev ServedAll : Machine → Machine → Prop :=
  Relation.ReflTransGen Served

variable {m m' : Machine}

theorem Inside.execute {mode : Mode} (h : m.Inside mode) (host : Host σ) (cycles : Nat) (s : σ) :
    (execute host cycles (m, s)).2.1.Inside mode := by
  have hclear : Inside mode { m with interrupted := false } := ⟨h.inside, h.mode⟩
  have hsteps := hclear.steps host cycles s
  unfold Machine.execute
  dsimp only
  by_cases hflag : m.interrupted = true
  · rw [if_pos hflag]
    exact ⟨h.inside, h.mode⟩
  · rw [if_neg hflag]
    split <;> rename_i hr <;> rw [hr] at hsteps <;> exact hsteps

/-- A scan puts the machine into another stream; refused, at its start. -/
theorem Inside.scan (h : m.Inside .run) (host : Host σ) (c : Code) (p : Nat) (s : σ) :
    (Exec.finalState (scan host c p (m, s))).1.Inside .run := by
  rcases Nat.lt_or_ge p c.size with hp | hp
  · have hstart : Inside .scan
        { m with code := c, position := p, mode := .scan, running := true } :=
      ⟨Nat.le_of_lt hp, rfl⟩
    have hsteps := hstart.steps host (c.size + 1) s
    rw [scan_inside hp]
    split <;> rename_i hr <;> rw [hr] at hsteps <;> exact ⟨hsteps.inside, rfl⟩
  · rw [scan_refused hp]
    exact ⟨Nat.zero_le _, h.mode⟩

theorem eq_of_start_error {c : Code} {p : Nat} {lock : Bool} {e : Error}
    (h : start c p lock m = .error e m') : m' = { m with code := c, position := 0 } := by
  rcases Nat.lt_or_ge p c.size with hp | hp
  · rw [start_eq_ok hp] at h
    cases h
  · rw [start_refused hp] at h
    cases h
    rfl

/-- Between requests a machine is inside its stream, and not in a scan. -/
theorem Served.inside (h : Served m m') (hm : m.Inside .run) : m'.Inside .run := by
  cases h with
  | startRefused hstart =>
    rw [eq_of_start_error hstart]
    exact ⟨Nat.zero_le _, hm.mode⟩
  | scan host c p t => exact hm.scan host c p t
  | step host t => exact hm.step host t
  | run host t n => exact hm.steps host n t
  | execute host t cycles => exact hm.execute host cycles t
  | interrupt => exact ⟨hm.inside, hm.mode⟩
  | store store => exact ⟨hm.inside, hm.mode⟩

/-- Only a start sets a machine going. -/
theorem Served.idle (h : Served m m') (hm : m.running = false) : m'.running = false := by
  -- what goes on in the stream does not set the machine going
  have hproceeds : ∀ {n : Machine}, m.Proceeds n → n.running = false := by
    intro n hn
    rw [Bool.eq_false_iff] at hm ⊢
    exact fun hrun => hm (hn.running hrun)
  cases h with
  | startRefused hstart =>
    rw [eq_of_start_error hstart]
    exact hm
  | scan host c p t =>
    rcases Nat.lt_or_ge p c.size with hp | hp
    · exact running_scan hp host m t
    · rw [scan_refused hp]
      exact hm
  | step host t => exact hproceeds (Exec.proceeds_step host (m, t))
  | run host t n => exact hproceeds (Exec.proceeds_steps host n (m, t))
  | execute host t cycles => exact hproceeds (proceeds_execute host cycles (m, t))
  | interrupt => exact hm
  | store store => exact hm

theorem ServedAll.inside (h : ServedAll m m') (hm : m.Inside .run) : m'.Inside .run := by
  induction h with
  | refl => exact hm
  | tail _ hserved ih => exact hserved.inside ih

theorem ServedAll.idle (h : ServedAll m m') (hm : m.running = false) : m'.running = false := by
  induction h with
  | refl => exact hm
  | tail _ hserved ih => exact hserved.idle ih

/-- A run that has been started is inside its stream. -/
theorem inside_of_start {c : Code} {p : Nat} {lock : Bool} (h : start c p lock m = .ok () m') :
    m'.Inside .run := by
  rcases Nat.lt_or_ge p c.size with hp | hp
  · rw [start_eq_ok hp] at h
    cases h
    exact ⟨Nat.le_of_lt hp, rfl⟩
  · rw [start_refused hp] at h
    cases h

-- ============================================================================
-- Failing steps
-- ============================================================================

/-- A run fails cleanly.  A run was started in any stream, and whatever requests came after
it, a step fails.  The error is not one of the machine itself, and its address lies between
the start of the failing instruction and the end of the stream.  The calls of the
instruction, as a record shows them, made the variables what they are; behind them the host
got the error once.  The machine does not run, and until it is started again no step does
anything. -/
theorem step_fails_cleanly {host : Host σ} (hhost : host.Unplaced) {c : Code} {p : Nat}
    {lock : Bool} {m₀ m₁ : Machine} (hstart : start c p lock m₀ = .ok () m₁)
    (hserved : ServedAll m₁ m) {s s' : σ} {e : Error}
    (hstep : Exec.step host (m, s) = .error e (m', s')) :
    e.kind ≠ .internalError ∧
    (∃ a, e.address = some a ∧ m.position ≤ a ∧ a ≤ m.code.size) ∧
    (∃ calls s'', Exec.step host.recorded (m, s, []) = .error e (m', s', calls) ∧
      (m'.store, s'') = host.made calls (m.store, s) ∧ s' = host.report e.render s'') ∧
    m'.running = false ∧
    ∀ m'', ServedAll m' m'' → ∀ {τ : Type} (host' : Host τ) (t : τ),
      Exec.step host' (m'', t) = .ok false (m'', t) := by
  have hinside := ServedAll.inside hserved (inside_of_start hstart)
  have hready : Exec.Ready host.recorded (fun a => m.position ≤ a ∧ a ≤ m.code.size)
      (m, s, ([] : List Host.Call)) :=
    ⟨⟨hinside.inside, fun _ hle hsize => ⟨hle, hsize⟩⟩, hinside.mode ▸ hhost.recorded.errsAt _⟩
  -- the same step with a record
  have hrecorded := Exec.forgets_step host m s []
  rw [hstep] at hrecorded
  cases hr : Exec.step host.recorded (m, s, []) with
  | ok more w =>
    rw [hr] at hrecorded
    cases hrecorded
  | error e' w =>
    rw [hr] at hrecorded
    obtain ⟨m'', s'', calls⟩ := w
    cases hrecorded
    obtain ⟨e₀, ⟨n, t, log⟩, hfailed, rfl, hw⟩ := Exec.failed_of_step hready hr
    cases hw
    have hasks := hfailed.asks
    rw [hinside.mode] at hasks
    obtain ⟨made, hlog, hmade⟩ := Host.made_of_asks hasks
    rw [List.append_nil] at hlog
    dsimp only at hlog
    subst hlog
    refine ⟨hfailed.kind, ?_, ⟨_, t, rfl, hmade, rfl⟩, rfl, fun m'' hlater τ host' t' => ?_⟩
    · cases ha : e₀.address with
      | none =>
        refine ⟨m.position, ?_, Nat.le_refl _, hinside.inside⟩
        rw [Error.atAddress, ha]
        rfl
      | some a =>
        refine ⟨a, ?_, hfailed.address a ha⟩
        rw [Error.atAddress, ha]
        rfl
    · exact Exec.step_idle host' (ServedAll.idle hlater rfl)

/-- A registry with one function. -/
def oneNative : Natives Unit :=
  ⟨fun code => if code = 5 then some fun _ => pure (.int 1) else none⟩

theorem oneNative_unplaced : oneNative.host.Unplaced := by
  rintro code args ⟨store, s, reports⟩ e w' he
  simp only [Natives.host, oneNative] at he
  by_cases hcode : code = 5
  · rw [if_pos hcode] at he
    cases he
  · rw [if_neg hcode] at he
    cases he
    rfl

/-- A call of a function that is not there, with the result of the one that is. -/
def missingCall : List Instruction :=
  [.func 7 (.cons .num (.last (.call 5 .nil)) .nil), .stop]

/-- The machine in front of the call. -/
def beforeMissingCall : Machine :=
  { code := (Instruction.stream missingCall).toArray, running := true }

theorem missingCall_fails :
    ∃ e w, Exec.step oneNative.host (beforeMissingCall, (), #[]) = .error e w := by
  have hlegible : ∀ i ∈ missingCall, i.Legible := by
    simp [missingCall, Instruction.Legible, Args.Legible, Expression.Legible, Operand.Legible,
      Param.isEmitted]
  have hhas := Code.has_of_mem (c := beforeMissingCall.code)
    (Code.instructions_of_toList hlegible rfl) List.mem_cons_self
  have hperform : ∀ next, (Instruction.func 7 (.cons .num (.last (.call 5 .nil)) .nil)).perform
      oneNative.host next (beforeMissingCall, (), #[]) =
        .error (.of (.noNative 7)) (beforeMissingCall, (), #[]) := fun _ => rfl
  obtain ⟨v, hv⟩ := Exec.step_of_perform_error hhas.legible hhas.holds rfl (hperform _)
  exact ⟨_, v, hv⟩

/-- The missing function fails behind a call that was made. -/
theorem missingCall_fails_cleanly :
    ∃ e m' s', Exec.step oneNative.host (beforeMissingCall, (), #[]) = .error e (m', s') ∧
      e.kind ≠ .internalError ∧
      (∃ a, e.address = some a ∧ beforeMissingCall.position ≤ a ∧
        a ≤ beforeMissingCall.code.size) ∧
      (∃ calls s'', Exec.step oneNative.host.recorded (beforeMissingCall, ((), #[]), []) =
          .error e (m', s', calls) ∧
        (m'.store, s'') = oneNative.host.made calls (beforeMissingCall.store, (), #[]) ∧
        s' = oneNative.host.report e.render s'') ∧
      m'.running = false ∧
      ∀ m'', ServedAll m' m'' →
        Exec.step oneNative.host (m'', (), #[]) = .ok false (m'', (), #[]) := by
  have hstart : start beforeMissingCall.code 0 false {} = .ok () beforeMissingCall := rfl
  obtain ⟨e, ⟨m', s'⟩, hstep⟩ := missingCall_fails
  obtain ⟨hkind, haddress, hcalls, hidle, hlater⟩ :=
    step_fails_cleanly oneNative_unplaced hstart .refl hstep
  exact ⟨e, m', s', hstep, hkind, haddress, hcalls, hidle,
    fun m'' h => hlater m'' h oneNative.host ((), #[])⟩

end Machine

end ScriptMachine
