/-
  ScriptMachine.Proofs.Checking

  A scan finds every function that is missing.  Where a scan goes over an instruction,
  the host has taken every call in it (`Instruction.of_perform_scan`); a scan that ends
  at the last instruction has gone over all of them (`Exec.steps_scan_taken`).  A run gets
  to no other instructions, so after a successful scan against a registry it calls
  registered functions only (`Compile.checked_calls_registered`).
-/

import ScriptMachine.Proofs.Conformance
import ScriptMachine.Proofs.Loading
import ScriptMachine.Proofs.Scanning

namespace ScriptMachine

variable {σ : Type}

/-- Whatever call the host takes, it is one of a function that satisfies `P`. -/
def Host.TakesOnly (host : Host σ) (mode : Mode) (P : UInt16 → Prop) : Prop :=
  ∀ code vs w v w', Work.invoke host mode code vs w = .ok v w' → P code

/-- In a scan the host of a registry takes registered functions only. -/
theorem Natives.takesOnly_host (n : Natives σ) :
    n.host.TakesOnly .scan fun code => n.contains code = true := by
  intro code vs w v w' h
  by_cases hcode : n.contains code = true
  · exact hcode
  · simp only [Work.invoke, Natives.host, if_neg hcode] at h
    cases h

-- ============================================================================
-- Calls that were taken
-- ============================================================================

section
variable {host : Host σ} {mode : Mode} {P : UInt16 → Prop}

mutual

/-- The calls in an operand that has a value were all taken. -/
theorem Operand.taken_of_eval (hhost : host.TakesOnly mode P) : ∀ {o : Operand} {w v w'},
    o.eval host mode w = .ok v w' → ∀ x ∈ o.calls, P x.1
  | .str _, _, _, _, _ => fun _ hx => nomatch hx
  | .num _, _, _, _, _ => fun _ hx => nomatch hx
  | .var _, _, _, _, _ => fun _ hx => nomatch hx
  | .call code args, w, v, w', h => by
    rw [Operand.eval] at h
    obtain ⟨vs, w₁, hargs, hinvoke⟩ := estate_bind_eq_ok h
    rw [Operand.calls]
    exact List.forall_mem_cons.2
      ⟨hhost code vs w₁ v w' hinvoke, Args.taken_of_eval hhost hargs⟩

theorem Args.taken_of_eval (hhost : host.TakesOnly mode P) : ∀ {as : Args} {w vs w'},
    as.eval host mode w = .ok vs w' → ∀ x ∈ as.calls, P x.1
  | .nil, _, _, _, _ => fun _ hx => nomatch hx
  | .cons p e rest, w, vs, w', h => by
    rw [Args.eval] at h
    obtain ⟨r, w₁, hchain, h₁⟩ := estate_bind_eq_ok h
    obtain ⟨_, w₂, _, h₂⟩ := estate_bind_eq_ok h₁
    obtain ⟨_, w₃, _, h₃⟩ := estate_bind_eq_ok h₂
    obtain ⟨_, w₄, hrest, _⟩ := estate_bind_eq_ok h₃
    rw [Args.calls]
    exact List.forall_mem_append.2
      ⟨Expression.taken_of_chain hhost hchain, Args.taken_of_eval hhost hrest⟩

theorem Expression.taken_of_chain (hhost : host.TakesOnly mode P) : ∀ {e : Expression} {w r w'},
    e.chain host mode w = .ok r w' → ∀ x ∈ e.calls, P x.1
  | .last o, w, r, w', h => by
    rw [Expression.chain] at h
    obtain ⟨_, w₁, ho, _⟩ := estate_bind_eq_ok h
    rw [Expression.calls]
    exact Operand.taken_of_eval hhost ho
  | .more o op rest, w, r, w', h => by
    rw [Expression.chain] at h
    obtain ⟨_, w₁, ho, h₁⟩ := estate_bind_eq_ok h
    obtain ⟨_, w₂, hrest, _⟩ := estate_bind_eq_ok h₁
    rw [Expression.calls]
    exact List.forall_mem_append.2
      ⟨Operand.taken_of_eval hhost ho, Expression.taken_of_chain hhost hrest⟩

end

theorem Expression.taken_of_eval (hhost : host.TakesOnly mode P) {e : Expression}
    {w w' : Store × σ} {v : Value} (h : e.eval host mode w = .ok v w') : ∀ x ∈ e.calls, P x.1 := by
  rw [Expression.eval] at h
  obtain ⟨r, w₁, hchain, _⟩ := estate_bind_eq_ok h
  exact Expression.taken_of_chain hhost hchain

end

-- ============================================================================
-- Instructions of a scan
-- ============================================================================

namespace Exec

variable {α : Type} {m : Machine} {s : σ}

/-- What follows on work that a scan has done well starts at the next instruction. -/
theorem of_work_bind_scan {β : Type} (hm : m.mode = .scan) {next : Nat} {y : Mode → Work σ α}
    {f : α → Exec σ β} {r : β} {w : Machine × σ} (h : (work next y >>= f) (m, s) = .ok r w) :
    ∃ v store s', y .scan (m.store, s) = .ok v (store, s') ∧
      f v ({ m with position := next, store }, s') = .ok r w := by
  obtain ⟨v, w₁, hwork, hf⟩ := estate_bind_eq_ok h
  unfold work at hwork
  dsimp only at hwork
  split at hwork
  · rename_i heq
    cases hwork
    exact ⟨_, _, _, hm ▸ heq, hf⟩
  · cases hwork

/-- A step without effect, at the end of an instruction. -/
theorem bind_true_of_idle {x : Exec σ α} {a : α} {w w' : Machine × σ} {more : Bool}
    (hx : x w = .ok a w) (h : (x >>= fun _ => pure true) w = .ok more w') :
    more = true ∧ w' = w := by
  simp only [bind, EStateM.bind, hx] at h
  cases h
  exact ⟨rfl, rfl⟩

end Exec

/-- What a scan makes of a machine at an instruction that ends at `next`: it goes on behind
the instruction, unless that is `stop`. -/
structure Instruction.Passes (i : Instruction) (next : Nat) (m : Machine) (more : Bool)
    (m' : Machine) : Prop where
  code : m'.code = m.code
  mode : m'.mode = m.mode
  position : m'.position = next
  running : m'.running = (m.running && more)
  more : more = (i.opcode != .stop)

/-- Behind the instruction, with whatever variables. -/
theorem Instruction.Passes.behind {i : Instruction} {next : Nat} {m : Machine} {store : Store}
    (hi : (i.opcode != .stop) = true) :
    i.Passes next m true { m with position := next, store } :=
  ⟨rfl, rfl, rfl, (Bool.and_true _).symm, hi.symm⟩

open Exec in
/-- Where a scan goes over an instruction, the host has taken the calls in it, and no jump
is followed. -/
theorem Instruction.of_perform_scan {host : Host σ} {P : UInt16 → Prop}
    (hhost : host.TakesOnly .scan P) {i : Instruction} {next : Nat} {m : Machine} {s : σ}
    {more : Bool} {w : Machine × σ} (hm : m.mode = .scan)
    (h : i.perform host next (m, s) = .ok more w) :
    (∀ x ∈ i.calls, P x.1) ∧ i.Passes next m more w.1 := by
  cases i with
  | stop =>
    cases h
    exact ⟨fun _ hx => (nomatch hx), rfl, rfl, rfl, (Bool.and_false _).symm, rfl⟩
  | assign how name e =>
    obtain ⟨v, store, s', heval, h₁⟩ := of_work_bind_scan hm h
    obtain ⟨rfl, rfl⟩ := bind_true_of_idle (effect_scan (by exact hm) _ s') h₁
    exact ⟨Expression.taken_of_eval hhost heval, .behind (by cases how <;> rfl)⟩
  | increment name | decrement name =>
    obtain ⟨_, w₁, hadvance, h₁⟩ := estate_bind_eq_ok h
    cases hadvance
    obtain ⟨rfl, rfl⟩ := bind_true_of_idle (effect_scan (by exact hm) _ s) h₁
    exact ⟨fun _ hx => (nomatch hx), .behind rfl⟩
  | unlessGoto e dest =>
    obtain ⟨v, store, s', heval, h₁⟩ := of_work_bind_scan hm h
    refine ⟨Expression.taken_of_eval hhost heval, ?_⟩
    dsimp only at h₁
    split at h₁
    · obtain ⟨rfl, rfl⟩ := bind_true_of_idle (jump_scan (by exact hm) dest s') h₁
      exact .behind rfl
    · cases h₁
      exact .behind rfl
  | unlessCaseGoto e dest =>
    obtain ⟨v, store, s', heval, h₁⟩ := of_work_bind_scan hm h
    rw [get_bind] at h₁
    dsimp only at h₁
    rw [if_neg (by rw [hm]; rintro ⟨⟩)] at h₁
    cases h₁
    exact ⟨Expression.taken_of_eval hhost heval, .behind rfl⟩
  | goto dest =>
    obtain ⟨_, w₁, hadvance, h₁⟩ := estate_bind_eq_ok h
    cases hadvance
    obtain ⟨rfl, rfl⟩ := bind_true_of_idle (jump_scan (by exact hm) dest s) h₁
    exact ⟨fun _ hx => (nomatch hx), .behind rfl⟩
  | func code args =>
    obtain ⟨v, store, s', heval, h₁⟩ := of_work_bind_scan hm h
    cases h₁
    exact ⟨Operand.taken_of_eval hhost heval, .behind rfl⟩
  | push name =>
    obtain ⟨_, w₁, hadvance, h₁⟩ := estate_bind_eq_ok h
    cases hadvance
    rw [get_bind] at h₁
    obtain ⟨rfl, rfl⟩ := bind_true_of_idle (onStack_scan (by exact hm) _ _ s) h₁
    exact ⟨fun _ hx => (nomatch hx), .behind rfl⟩
  | pop name =>
    obtain ⟨_, w₁, hadvance, h₁⟩ := estate_bind_eq_ok h
    cases hadvance
    obtain ⟨v, w₂, hpop, h₂⟩ := estate_bind_eq_ok h₁
    rw [onStack_scan (by exact hm)] at hpop
    cases hpop
    obtain ⟨rfl, rfl⟩ := bind_true_of_idle (effect_scan (by exact hm) _ s) h₂
    exact ⟨fun _ hx => (nomatch hx), .behind rfl⟩

-- ============================================================================
-- Scans
-- ============================================================================

namespace Exec

section
variable {host : Host σ} {P : UInt16 → Prop} (hhost : host.TakesOnly .scan P) {m : Machine} {s : σ}
  (hm : m.mode = .scan) (hr : m.running = true)
include hhost hm hr

/-- One step of a scan over an instruction. -/
theorem of_step_scan {i : Instruction} {q : Nat} {more : Bool} {w : Machine × σ}
    (h : m.code.Has m.position i q) (hstep : step host (m, s) = .ok more w) :
    (∀ x ∈ i.calls, P x.1) ∧ i.Passes q m more w.1 := by
  obtain ⟨hlegible, hholds, rfl⟩ := h
  have hagree : Agrees (instruction host (m, s)) _ := instruction_of_holds hlegible hholds
  rw [step, if_pos hr] at hstep
  cases hp : i.perform host (m.position + i.bytes.length) (m, s) with
  | ok more' w' =>
    rw [hp] at hagree
    simp only [show instruction host (m, s) = .ok more' w' from hagree] at hstep
    cases hstep
    exact Instruction.of_perform_scan hhost hm hp
  | error e w' =>
    rw [hp] at hagree
    obtain ⟨q, hi⟩ := hagree
    simp only [hi] at hstep
    cases hstep

/-- A scan that goes well along a walk has had all calls of the walk taken. -/
theorem steps_scan_taken {is : List Instruction} {q n : Nat} {b : Bool} {w : Machine × σ}
    (h : m.code.Walk m.position is q) (hsteps : steps host (is.length + n) (m, s) = .ok b w) :
    ∀ i ∈ is, ∀ x ∈ i.calls, P x.1 := by
  induction is generalizing m s with
  | nil => exact fun _ hi => nomatch hi
  | cons i is ih =>
    obtain ⟨hi, hhas, hwalk⟩ := h.head
    rw [List.length_cons, Nat.succ_add, steps_succ] at hsteps
    cases hstep : step host (m, s) with
    | error e w' =>
      rw [hstep] at hsteps
      cases hsteps
    | ok more w' =>
      obtain ⟨hcalls, hpasses⟩ := of_step_scan hhost hm hr hhas hstep
      obtain rfl : more = true := hpasses.more.trans (i.opcode_ne_stop hi)
      rw [hstep] at hsteps
      obtain ⟨m', s'⟩ := w'
      obtain ⟨hcode, hmode, hposition, hrunning, _⟩ := hpasses
      rw [← hcode, ← hposition] at hwalk
      refine List.forall_mem_cons.2 ⟨hcalls, ih (hmode.trans hm) ?_ hwalk hsteps⟩
      rw [hrunning, hr]
      rfl

end

end Exec

/-- A scan that ends well has had the calls taken of all instructions up to the first
`stop`. -/
theorem Machine.scan_taken {host : Host σ} {P : UInt16 → Prop} (hhost : host.TakesOnly .scan P)
    {c : Code} {is : List Instruction} {q : Nat} (hw : c.Walk 0 is q) {m : Machine} {s : σ}
    {w : Machine × σ} (hscan : scan host c 0 (m, s) = .ok () w) :
    ∀ i ∈ is, ∀ x ∈ i.calls, P x.1 := by
  have hlen := hw.length_le (Nat.zero_le _)
  obtain ⟨n, hn⟩ : ∃ n, c.size + 1 = is.length + n := ⟨c.size + 1 - is.length, by omega⟩
  rcases Nat.lt_or_ge 0 c.size with hc | hc
  · rw [scan_inside hc, hn] at hscan
    cases hsteps : Exec.steps host (is.length + n)
        ({ m with code := c, position := 0, mode := .scan, running := true }, s) with
    | ok b w' => exact Exec.steps_scan_taken hhost rfl rfl hw hsteps
    | error e w' =>
      rw [hsteps] at hscan
      cases hscan
  · rw [scan_refused hc] at hscan
    cases hscan

/-- A well-formed stream with one `stop` is a walk in front of it. -/
theorem Code.WellFormed.walk {c : Code} {is : List Instruction} (h : c.WellFormed is)
    (hone : is.countP (fun i => i.opcode == .stop) = 1) :
    ∃ js q, is = js ++ [.stop] ∧ c.Walk 0 js q := by
  obtain ⟨js, rfl⟩ := List.getLast?_eq_some_iff.1 h.stops
  obtain ⟨ks, hlegible, _, hlocated⟩ := Code.instructions_eq_ok_iff.1 h.reading
  have hks : ks = js ++ [.stop] := by
    rw [← Instruction.map_snd_located 0 ks, ← hlocated, Instruction.map_snd_located]
  rw [hks] at hlegible
  have hnone : js.countP (fun i => i.opcode == .stop) = 0 := by
    rw [List.countP_append] at hone
    exact Nat.succ.inj hone
  have hholds : c.Holds 0 (Instruction.stream js) :=
    @Code.holds_of_toList c [] _ _ (h.bytes.trans (Instruction.stream_append js [.stop]))
  refine ⟨js, _, rfl, fun i hi => hlegible i (List.mem_append_left _ hi), fun i hi hstop => ?_,
    hholds, rfl⟩
  rw [List.countP_eq_zero] at hnone
  exact hnone i hi (by rw [hstop]; rfl)

namespace Compile

/-- A successful check predicts that no function is missing.  Whatever scripts and tables
are compiled, when the finished program has no `stop` but the last and a scan of it from
its start against a registry ends well, then in every run from the start against this
registry, with jumps on or off and whatever its functions return or do to the variables,
each call that the registry receives is one of a registered function. -/
theorem checked_calls_registered (config : Config) (feeds : List Feed) (p : Program)
    (c : Compiler)
    (h : (do feeds.forM Feed.load; finish : Compile Program) (Compiler.ofConfig config) = .ok p c)
    (hsize : p.code.size < 2 ^ 63) (l : List (Nat × Instruction))
    (hread : p.code.instructions = .ok l)
    (hone : l.countP (fun x => x.2.opcode == .stop) = 1) (n : Natives σ) (m₁ : Machine)
    (s₁ : σ × Array String) (w : Machine × σ × Array String)
    (hscan : Machine.scan n.host p.code 0 (m₁, s₁) = .ok () w) (lock : Bool) (m₀ : Machine)
    (s : σ × Array String) :
    ∃ m, Machine.start p.code 0 lock m₀ = .ok () m ∧ ∀ k,
      forget (Exec.steps n.host.recorded k (m, s, [])) = Exec.steps n.host k (m, s) ∧
      ∀ call ∈ (Exec.finalState (Exec.steps n.host.recorded k (m, s, []))).2.2,
        n.contains call.code = true := by
  obtain ⟨is, hwf, hallowed⟩ := finished_calls_allowed h
  obtain rfl : Instruction.located 0 is = l := Except.ok.inj (hwf.reading.symm.trans hread)
  have hone' : is.countP (fun i => i.opcode == .stop) = 1 := by
    rw [← Instruction.map_snd_located 0 is, List.countP_map]
    exact hone
  obtain ⟨js, q, rfl, hwalk⟩ := hwf.walk hone'
  have htaken := Machine.scan_taken n.takesOnly_host hwalk hscan
  -- the functions that are both declared and registered
  let D : Signatures := fun code params =>
    Declared config feeds code params ∧ n.contains code = true
  have hD : ∀ code params, D code params → Param.value ∉ params :=
    fun _ _ hd => value_not_mem_of_declared hd.1
  have hcalls : ∀ i ∈ js ++ [.stop], ∀ x ∈ i.calls, D.Allow x := by
    intro i hi x hx
    obtain ⟨params, hdeclared, hfits⟩ := hallowed i hi x hx
    refine ⟨params, ⟨hdeclared, ?_⟩, hfits⟩
    rcases List.mem_append.1 hi with hi | hi
    · exact htaken i hi x hx
    · rw [List.mem_singleton.1 hi] at hx
      cases hx
  have hclosed := hwf.closed hsize
  obtain ⟨i, hi⟩ := hclosed.head_mem
  obtain ⟨m, hstart, hm⟩ := Machine.start_onTrack hclosed.reading hi lock m₀
  refine ⟨m, hstart, fun k => ⟨Exec.steps_recorded n.host k m s [], fun call hcall => ?_⟩⟩
  obtain ⟨params, hd, _⟩ := Exec.steps_conform hD hclosed hcalls n.host hm k s call hcall
  exact hd.2

/-- The registry with the function 7 only. -/
def sevenRegistered : Natives Unit where
  find? code := if code = 7 then some fun _ => pure default else none

/-- What the script that declares a function and calls it is compiled to. -/
def callingStream : List Instruction :=
  [.func 7 (.cons .optional (.last (.var nullName)) .nil), .stop]

theorem finish_callingStream :
    ∃ p c, finish calling = .ok p c ∧ p.code = (Instruction.stream callingStream).toArray := by
  have hok : (finish.run' calling).any
      (fun p => decide (p.code = (Instruction.stream callingStream).toArray)) = true := by
    decide +kernel
  obtain ⟨p, c, hp, hcode⟩ := exists_of_run'_any hok
  exact ⟨p, c, hp, of_decide_eq_true hcode⟩

theorem read_callingStream : Code.instructions (Instruction.stream callingStream).toArray =
    .ok (Instruction.located 0 callingStream) := by
  have hnull : Item.textFits nullName = true := by decide
  refine Code.instructions_of_toList ?_ rfl
  simp [callingStream, Instruction.Legible, Args.Legible, Expression.Legible, Operand.Legible,
    Param.isEmitted, hnull]

theorem scan_callingStream : ∃ w, Machine.scan sevenRegistered.host
    (Instruction.stream callingStream).toArray 0 ({}, (), #[]) = .ok () w := by
  have hcall := Code.has_of_mem read_callingStream List.mem_cons_self
  have hstop := Code.has_of_mem read_callingStream (List.mem_cons_of_mem _ List.mem_cons_self)
  let m : Machine :=
    { code := (Instruction.stream callingStream).toArray, mode := .scan, running := true }
  have hgoes : Exec.steps sevenRegistered.host 1 (m, (), #[]) =
      .ok false ({ m with position := _ }, _) :=
    Exec.steps_of_perform hcall.legible hcall.holds rfl true rfl
  have hlast : Exec.steps sevenRegistered.host 1 ({ m with position := _ }, (), #[]) = .ok true _ :=
    Exec.steps_of_perform hstop.legible hstop.holds rfl false rfl
  have hsteps := Exec.steps_of_end (l := m.code.size + 1) ((Exec.steps_add hgoes 1).trans hlast)
    (by simp) (by decide)
  have hscan := Machine.scan_inside (p := 0) (show 0 < m.code.size by decide)
    sevenRegistered.host {} ((), #[])
  exact ⟨_, by rw [hscan, hsteps]⟩

/-- The check of the script against a registry with its function goes well, and no run calls
anything else. -/
theorem callingScript_checked :
    ∃ p c, (do [Feed.script "" callingScript].forM Feed.load; finish : Compile Program)
        (Compiler.ofConfig {}) = .ok p c ∧ ∀ lock,
      ∃ m, Machine.start p.code 0 lock {} = .ok () m ∧ ∀ k,
        forget (Exec.steps sevenRegistered.host.recorded k (m, ((), #[]), [])) =
          Exec.steps sevenRegistered.host k (m, (), #[]) ∧
        ∀ call ∈ (Exec.finalState
            (Exec.steps sevenRegistered.host.recorded k (m, ((), #[]), []))).2.2,
          sevenRegistered.contains call.code = true := by
  obtain ⟨p, c, hfinish, hcode⟩ := finish_callingStream
  have hrun : (do [Feed.script "" callingScript].forM Feed.load; finish : Compile Program)
      (Compiler.ofConfig {}) = .ok p c := bind_eq_ok_iff.2 ⟨(), calling, load_calling, hfinish⟩
  have hsize : p.code.size < 2 ^ 63 := by
    rw [hcode]
    decide
  have hread : p.code.instructions = .ok (Instruction.located 0 callingStream) := by
    rw [hcode]
    exact read_callingStream
  obtain ⟨w, hscan⟩ : ∃ w, Machine.scan sevenRegistered.host p.code 0 ({}, (), #[]) = .ok () w := by
    rw [hcode]
    exact scan_callingStream
  refine ⟨p, c, hrun, fun lock => ?_⟩
  exact checked_calls_registered {} _ p c hrun hsize _ hread (by decide) sevenRegistered {} _ w
    hscan lock {} ((), #[])

end Compile

end ScriptMachine
