/-
  ScriptMachine.Proofs.Loading

  Which stream a machine runs.  An instruction stays in the stream it belongs to and
  never sets a machine going (`Exec.proceeds_instruction`); only `start` does that.  A
  stream that is refused because of the position takes the place of the one before
  nevertheless (`Machine.load_refused`), so a machine that was running goes on in it.
  Where the last stream was not refused while the machine ran, a machine that runs is in
  the stream that was started last (`Machine.started_code_runs`).
-/

import ScriptMachine.Proofs.Decoding
import ScriptMachine.Proofs.Recording
import ScriptMachine.Proofs.Safety

namespace ScriptMachine

variable {σ : Type}

-- ============================================================================
-- Steps in a stream
-- ============================================================================

/-- The machine `m'` is in the stream of `m`, and runs or is interrupted only if `m` was. -/
structure Machine.Proceeds (m m' : Machine) : Prop where
  code : m'.code = m.code
  running : m'.running = true → m.running = true
  interrupted : m'.interrupted = true → m.interrupted = true

theorem Machine.Proceeds.refl (m : Machine) : m.Proceeds m :=
  ⟨rfl, id, id⟩

theorem Machine.Proceeds.trans {m m' m'' : Machine} (h : m.Proceeds m') (k : m'.Proceeds m'') :
    m.Proceeds m'' :=
  ⟨k.code.trans h.code, fun hm => h.running (k.running hm),
    fun hm => h.interrupted (k.interrupted hm)⟩

namespace Exec

variable {α β : Type}

/-- However the step ends, it stays in the stream and neither sets the machine going nor
interrupts it. -/
def Proceeds (x : Exec σ α) : Prop :=
  ∀ w : Machine × σ, w.1.Proceeds (finalState (x w)).1

namespace Proceeds

theorem bind {x : Exec σ α} {f : α → Exec σ β} (h : Proceeds x) (hf : ∀ a, Proceeds (f a)) :
    Proceeds (x >>= f) := by
  intro w
  have hx := h w
  simp only [Bind.bind, EStateM.bind]
  cases hr : x w with
  | ok a v =>
    rw [hr] at hx
    exact hx.trans (hf a v)
  | error e v =>
    rw [hr] at hx
    exact hx

theorem pure (a : α) : Proceeds (Pure.pure a : Exec σ α) :=
  fun w => .refl w.1

theorem throw (e : Error) : Proceeds (MonadExcept.throw e : Exec σ α) :=
  fun w => .refl w.1

/-- A look at the state in front of a step. -/
theorem get {f : Machine × σ → Exec σ β} (h : ∀ w, Proceeds (f w)) :
    Proceeds (MonadState.get >>= f) :=
  fun w => h w w

end Proceeds

theorem proceeds_read (f : (c : Code) → (position : Nat) → c.Read α position) :
    Proceeds (read f : Exec σ α) := by
  rintro ⟨m, s⟩
  unfold read
  dsimp only
  cases f m.code m.position with
  | ok r => exact ⟨rfl, id, id⟩
  | error e => exact ⟨rfl, id, id⟩

theorem proceeds_evaluate
    (f : (mode : Mode) → (c : Code) → (position : Nat) → Eval σ (Value × c.Past position)) :
    Proceeds (evaluate f) := by
  rintro ⟨m, s⟩
  unfold evaluate
  dsimp only
  cases f m.mode m.code m.position (m.store, s) with
  | ok r w => exact ⟨rfl, id, id⟩
  | error e w => exact ⟨rfl, id, id⟩

theorem proceeds_change {f : Machine → Except Error Machine}
    (h : ∀ m m', f m = .ok m' → m.Proceeds m') : Proceeds (change f : Exec σ Unit) := by
  rintro ⟨m, s⟩
  unfold change
  dsimp only
  cases hf : f m with
  | ok m' => exact h m m' hf
  | error e => exact .refl m

theorem proceeds_effect {f : Machine → Except Error Machine}
    (h : ∀ m m', f m = .ok m' → m.Proceeds m') : Proceeds (effect f : Exec σ Unit) := by
  refine proceeds_change fun m m' hm => ?_
  split at hm
  · cases hm
    exact .refl m
  · exact h m m' hm

theorem proceeds_jump (address : Int64) : Proceeds (jump address : Exec σ Unit) := by
  refine proceeds_change fun m m' hm => ?_
  split at hm
  · cases hm
    exact .refl m
  · split at hm
    · cases hm
    · obtain ⟨p, _, hp⟩ := except_bind_eq_ok hm
      cases hp
      exact ⟨rfl, id, id⟩

theorem proceeds_onStack (x : EStateM Error (Stack Value) α) (skipped : α) :
    Proceeds (onStack x skipped : Exec σ α) := by
  rintro ⟨m, s⟩
  unfold onStack
  dsimp only
  split
  · exact .refl m
  · cases x m.stack with
    | ok a stack => exact ⟨rfl, id, id⟩
    | error e stack => exact ⟨rfl, id, id⟩

end Exec

theorem Machine.proceeds_setVariable {m m' : Machine} {name : String} {v : Value}
    (h : m.setVariable name v = .ok m') : m.Proceeds m' := by
  obtain ⟨store, _, hm⟩ := except_bind_eq_ok h
  cases hm
  exact ⟨rfl, id, id⟩

namespace Exec

variable (host : Host σ)

theorem proceeds_assign (f : Value → Value → Except Error Value) : Proceeds (assign host f) := by
  refine (proceeds_read _).bind fun name => (proceeds_evaluate _).bind fun v => ?_
  refine proceeds_effect fun m m' hm => ?_
  obtain ⟨v', _, hset⟩ := except_bind_eq_ok hm
  exact Machine.proceeds_setVariable hset

theorem proceeds_update (f : Value → Value) : Proceeds (update f : Exec σ Unit) :=
  (proceeds_read _).bind fun _ => proceeds_effect fun _ _ hm => Machine.proceeds_setVariable hm

/-- One instruction, one case for each of its opcodes. -/
theorem proceeds_instruction : Proceeds (instruction host) := by
  refine (proceeds_read _).bind fun opcode => ?_
  cases opcode with
  | stop =>
    refine (proceeds_change fun m m' hm => ?_).bind fun _ => .pure _
    cases hm
    exact ⟨rfl, fun hrun => (nomatch hrun), id⟩
  | mov | add | sub | mul | div | mod => exact (proceeds_assign host _).bind fun _ => .pure _
  | inc | dec => exact (proceeds_update _).bind fun _ => .pure _
  | cmp =>
    refine (proceeds_evaluate _).bind fun v => (proceeds_read _).bind fun address => ?_
    dsimp only
    split
    · exact (proceeds_jump address).bind fun _ => .pure _
    · exact .pure _
  | case =>
    refine (proceeds_evaluate _).bind fun v => (proceeds_read _).bind fun address => ?_
    refine .get fun w => ?_
    dsimp only
    split
    · split
      · exact .pure _
      · exact (proceeds_jump address).bind fun _ => .pure _
      · exact (Proceeds.throw _).bind fun _ => .pure _
    · exact .pure _
  | goto =>
    exact (proceeds_read _).bind fun address => (proceeds_jump address).bind fun _ => .pure _
  | func => exact (proceeds_evaluate _).bind fun _ => .pure _
  | push =>
    refine (proceeds_read _).bind fun name => .get fun w => ?_
    exact (proceeds_onStack _ _).bind fun _ => .pure _
  | pop =>
    refine (proceeds_read _).bind fun name => (proceeds_onStack _ _).bind fun v => ?_
    exact (proceeds_effect fun _ _ hm => Machine.proceeds_setVariable hm).bind fun _ => .pure _

theorem proceeds_halt (e : Error) : Proceeds (halt host e : Exec σ α) :=
  fun _ => ⟨rfl, fun hrun => (nomatch hrun), id⟩

theorem proceeds_step : Proceeds (step host) := by
  rintro ⟨m, s⟩
  have hi := proceeds_instruction host (m, s)
  unfold step
  dsimp only
  split
  · cases hr : instruction host (m, s) with
    | ok more w =>
      rw [hr] at hi
      exact hi
    | error e w =>
      rw [hr] at hi
      exact hi.trans (proceeds_halt (α := Bool) host (e.atAddress m.position) w)
  · exact .refl m

theorem proceeds_steps (n : Nat) : Proceeds (steps host n) := by
  induction n with
  | zero => exact .pure _
  | succ n ih =>
    refine (proceeds_step host).bind fun more => ?_
    split
    · exact ih
    · exact .pure _

/-- A machine that does not run executes nothing. -/
theorem steps_idle {m : Machine} (hm : m.running = false) (n : Nat) (s : σ) :
    steps host (n + 1) (m, s) = .ok true (m, s) := by
  have hstep : step host (m, s) = .ok false (m, s) := by simp [step, hm]
  rw [steps_succ, hstep]

end Exec

namespace Machine

theorem proceeds_execute (host : Host σ) (cycles : Nat) (w : Machine × σ) :
    w.1.Proceeds (execute host cycles w).2.1 := by
  have hx : Exec.Proceeds (if w.1.interrupted then
      Exec.halt host ((Error.of .interrupted).atAddress w.1.position)
    else Exec.steps host cycles) := by
    split
    · exact Exec.proceeds_halt host _
    · exact Exec.proceeds_steps host cycles
  have hend := hx ({ w.1 with interrupted := false }, w.2)
  have hclear : w.1.Proceeds { w.1 with interrupted := false } :=
    ⟨rfl, id, fun hflag => nomatch hflag⟩
  unfold execute
  dsimp only
  split <;> rename_i heq <;> rw [heq] at hend <;> exact hclear.trans hend

-- ============================================================================
-- Loading a stream
-- ============================================================================

theorem load_inside {c : Code} {p : Nat} (hp : p < c.size) (m : Machine) :
    load c p m = .ok () { m with code := c, position := p } := by
  simp only [load, Code.seek, if_pos hp]

/-- A stream that is refused is loaded all the same, and the machine stands at its start. -/
theorem load_refused {c : Code} {p : Nat} (hp : c.size ≤ p) (m : Machine) :
    load c p m = .error (.of (.addressBeyond p c.size)) { m with code := c, position := 0 } := by
  simp only [load, Code.seek, if_neg (Nat.not_lt.2 hp)]

/-- A start that is refused leaves the flags of the machine as they were. -/
theorem start_refused {c : Code} {p : Nat} (hp : c.size ≤ p) (lock : Bool) (m : Machine) :
    start c p lock m =
      .error (.of (.addressBeyond p c.size)) { m with code := c, position := 0 } := by
  simp only [start, bind, EStateM.bind, load_refused hp]

theorem scan_refused {c : Code} {p : Nat} (hp : c.size ≤ p) (host : Host σ) (m : Machine) (s : σ) :
    scan host c p (m, s) =
      .error (.of (.addressBeyond p c.size)) ({ m with code := c, position := 0 }, s) := by
  simp only [scan, load_refused hp]

theorem scan_inside {c : Code} {p : Nat} (hp : p < c.size) (host : Host σ) (m : Machine) (s : σ) :
    scan host c p (m, s) =
      match Exec.steps host (c.size + 1)
        ({ m with code := c, position := p, mode := .scan, running := true }, s) with
      | .ok _ (m, s) => .ok () ({ m with mode := .run, running := false }, s)
      | .error e (m, s) => .error e ({ m with mode := .run, running := false }, s) := by
  cases hend : Exec.steps host (c.size + 1)
    ({ m with code := c, position := p, mode := .scan, running := true }, s) with
  | ok | error => simp only [scan, load_inside hp, hend]

/-- After a scan, well or not, the machine does not run. -/
theorem running_scan {c : Code} {p : Nat} (hp : p < c.size) (host : Host σ) (m : Machine) (s : σ) :
    (Exec.finalState (scan host c p (m, s))).1.running = false := by
  rw [scan_inside hp]
  split <;> rfl

-- ============================================================================
-- Histories of a machine
-- ============================================================================

/-- What became of a stream that a machine was given. -/
inductive Loading where
  | started (c : Code)
  | scanned (c : Code)
  /-- The position was outside; `running` tells whether the machine was running then. -/
  | refused (c : Code) (running : Bool)

/-- The stream, if a run of it was started. -/
def Loading.started? : Loading → Option Code
  | .started c => some c
  | _ => none

/-- The machines to which requests lead, in any order and each with a host of its own,
together with the streams that were given on the way, the last one first. -/
inductive Reached : List Loading → Machine → Prop where
  | fresh : Reached [] {}
  | start {l m m' c p lock} (h : Reached l m) (hstart : start c p lock m = .ok () m') :
      Reached (.started c :: l) m'
  | startRefused {l m m' c p lock e} (h : Reached l m) (hstart : start c p lock m = .error e m') :
      Reached (.refused c m.running :: l) m'
  | scan {l m c p} {σ : Type} (h : Reached l m) (hp : p < c.size) (host : Host σ) (s : σ) :
      Reached (.scanned c :: l) (Exec.finalState (scan host c p (m, s))).1
  | scanRefused {l m c p} {σ : Type} (h : Reached l m) (hp : c.size ≤ p) (host : Host σ) (s : σ) :
      Reached (.refused c m.running :: l) (Exec.finalState (scan host c p (m, s))).1
  | step {l m} {σ : Type} (h : Reached l m) (host : Host σ) (s : σ) :
      Reached l (Exec.finalState (Exec.step host (m, s))).1
  /-- A run is as many steps as it takes. -/
  | run {l m} {σ : Type} (h : Reached l m) (host : Host σ) (s : σ) (n : Nat) :
      Reached l (Exec.finalState (Exec.steps host n (m, s))).1
  | execute {l m} {σ : Type} (h : Reached l m) (host : Host σ) (s : σ) (cycles : Nat) :
      Reached l (execute host cycles (m, s)).2.1
  | interrupt {l m} (h : Reached l m) : Reached l m.interrupt
  | setVariable {l m m' name v} (h : Reached l m) (hset : m.setVariable name v = .ok m') :
      Reached l m'

/-- A machine that runs is in the stream it was given last: either that was started, or it
was refused while the machine was running. -/
def Loaded (l : List Loading) (m : Machine) : Prop :=
  m.running = true →
    l.head? = some (.started m.code) ∨ l.head? = some (.refused m.code true)

theorem Loaded.proceeds {l : List Loading} {m m' : Machine} (h : Loaded l m) (hm : m.Proceeds m') :
    Loaded l m' := by
  intro hrun
  rw [hm.code]
  exact h (hm.running hrun)

theorem loaded_refused (l : List Loading) (c : Code) (m : Machine) :
    Loaded (.refused c m.running :: l) { m with code := c, position := 0 } := by
  intro hrun
  have hm : m.running = true := hrun
  rw [hm]
  exact .inr rfl

/-- One case for each kind of request: a start and a scan put the machine into the stream
they are given, the others stay in the stream there is. -/
theorem Reached.loaded {l : List Loading} {m : Machine} (h : Reached l m) : Loaded l m := by
  induction h with
  | fresh => exact fun hrun => nomatch hrun
  | @start l m m' c p lock h hstart ih =>
    rintro -
    rcases Nat.lt_or_ge p c.size with hp | hp
    · rw [start_eq_ok hp] at hstart
      cases hstart
      exact .inl rfl
    · rw [start_refused hp] at hstart
      cases hstart
  | @startRefused l m m' c p lock e h hstart ih =>
    rcases Nat.lt_or_ge p c.size with hp | hp
    · rw [start_eq_ok hp] at hstart
      cases hstart
    · rw [start_refused hp] at hstart
      cases hstart
      exact loaded_refused l c m
  | scan h hp host s ih =>
    intro hrun
    rw [running_scan hp host] at hrun
    cases hrun
  | @scanRefused l m c p σ h hp host s ih =>
    rw [scan_refused hp]
    exact loaded_refused l c m
  | @step l m σ h host s ih => exact ih.proceeds (Exec.proceeds_step host (m, s))
  | @run l m σ h host s n ih => exact ih.proceeds (Exec.proceeds_steps host n (m, s))
  | @execute l m σ h host s cycles ih => exact ih.proceeds (proceeds_execute host cycles (m, s))
  | interrupt h ih => exact ih
  | setVariable h hset ih => exact ih.proceeds (proceeds_setVariable hset)

/-- Only a stream that was started is executed.  Whatever requests a machine has had, if it
runs then the stream it is in is that of the last start that went well, and a stream that
was refused is not executed however many steps are asked for; unless the last stream was
refused while the machine was running. -/
theorem started_code_runs {l : List Loading} {m : Machine} (h : Reached l m)
    (hidle : ∀ c, l.head? ≠ some (.refused c true)) :
    (m.running = true → l.findSome? Loading.started? = some m.code) ∧
    (∀ c running, l.head? = some (.refused c running) → ∀ (σ : Type) (host : Host σ) s n,
      Exec.steps host (n + 1) (m, s) = .ok true (m, s)) := by
  refine ⟨fun hrun => ?_, fun c running hhead σ host s n => ?_⟩
  · have hhead : l.head? = some (.started m.code) := (h.loaded hrun).resolve_right (hidle m.code)
    obtain ⟨rest, rfl⟩ := List.head?_eq_some_iff.1 hhead
    rfl
  · refine Exec.steps_idle host (Bool.eq_false_iff.2 fun hrun => ?_) n s
    -- a machine that runs would have had its stream refused while it ran
    rcases h.loaded hrun with hstarted | hrefused
    · rw [hhead] at hstarted
      cases hstarted
    · exact hidle _ hrefused

/-- A stream that goes round and round. -/
def spinning : Code :=
  (Instruction.stream [.goto 0, .stop]).toArray

/-- A stream that is refused before any run has begun is not executed; a run that is started
later is. -/
theorem spinning_runs_after_refusal :
    ∃ m m', Reached [.refused spinning false] m ∧
      Exec.steps Host.mute 5 (m, ()) = .ok true (m, ()) ∧
      Reached [.started spinning, .refused spinning false] m' ∧
      m'.running = true ∧ m'.code = spinning := by
  have hrefused : Reached [.refused spinning false] { code := spinning } :=
    .startRefused .fresh (start_refused (p := 13) (by decide) false {})
  have hstart : start spinning 0 false { code := spinning } =
      .ok () { code := spinning, running := true } := rfl
  have hstarted := Reached.run (.start hrefused hstart) Host.mute () 3
  have hidle := started_code_runs hrefused (by simp)
  have hruns := started_code_runs hstarted (by simp)
  refine ⟨_, _, hrefused, hidle.2 _ _ rfl Unit Host.mute () 4, hstarted, ?_⟩
  have hrun : (Exec.finalState (Exec.steps Host.mute 3
      ({ code := spinning, running := true }, ()))).1.running = true := by decide +kernel
  exact ⟨hrun, (Option.some.inj (hruns.1 hrun)).symm⟩

end Machine

end ScriptMachine
