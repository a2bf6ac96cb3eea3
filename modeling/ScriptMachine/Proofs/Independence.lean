/-
  ScriptMachine.Proofs.Independence

  A scan has no effect and sees no memory.  Two scans of one stream go side by side, whatever
  the variables and the stacks of the two machines are, and leave these alone
  (`Machine.scan_matches`).  With the hosts chosen in turn this says that the memory neither
  changes nor matters, that a host is asked about calls and never gets one, and that it is
  asked the same (`Machine.scan_pure`).
-/

import ScriptMachine.Proofs.Recording

namespace ScriptMachine

variable {σ σ' : Type}

/-- The states at the end of two matching steps. -/
theorem Matches.finalState {α : Type} {R : α → α → Prop} {W : Machine × σ → Machine × σ' → Prop}
    {r : EStateM.Result Error (Machine × σ) α} {r' : EStateM.Result Error (Machine × σ') α}
    (h : Matches W R r r') : W (Exec.finalState r) (Exec.finalState r') := by
  cases h with
  | ok _ hw => exact hw
  | error _ hw => exact hw

/-- Two scans of one stream match, whatever the two memories are, and leave them alone. -/
theorem Machine.scan_matches {U : σ → σ' → Prop} {host : Host σ} {host' : Host σ'}
    (hhost : host.Alike .scan U host') (c : Code) (p : Nat) (m : Machine)
    (memory memory' : Store × Stack Value) {s : σ} {s' : σ'} (hs : U s s') :
    Matches (Joint (fun n n' => ∃ base : Machine, n = base.withMemory memory ∧
        n' = base.withMemory memory') U) Eq
      (scan host c p (m.withMemory memory, s)) (scan host' c p (m.withMemory memory', s')) := by
  refine (sideBySide_scan (P := fun k k' => k = memory ∧ k' = memory') hhost c p _ _
    ⟨⟨memory', ⟨rfl, rfl⟩, rfl⟩, hs⟩).mono fun w w' hw => ?_
  obtain ⟨n, s⟩ := w
  obtain ⟨_, s'⟩ := w'
  obtain ⟨⟨_, ⟨hown, rfl⟩, rfl⟩, hs⟩ := hw
  exact ⟨⟨n, congrArg n.withMemory hown, rfl⟩, hs⟩

namespace Host

/-- What a host was asked: to make a call in a run, or in a scan whether it would. -/
structure Request where
  mode : Mode
  code : UInt16
  args : List Value

/-- The host with a list of what it was asked, the last first. -/
def observed (host : Host σ) : Host (σ × List Request) where
  call code args := fun (store, s, asked) =>
    let asked := ⟨.run, code, args⟩ :: asked
    match host.call code args (store, s) with
    | .ok v (store, s) => .ok v (store, s, asked)
    | .error e (store, s) => .error e (store, s, asked)
  check code args := fun (s, asked) =>
    let asked := ⟨.scan, code, args⟩ :: asked
    match host.check code args s with
    | .ok v s => .ok v (s, asked)
    | .error e s => .error e (s, asked)
  report message := fun (s, asked) => (host.report message s, asked)

theorem alike_refl (host : Host σ) : host.Alike .scan Eq host where
  call := nofun
  check _ code args := by
    rintro s _ rfl
    cases host.check code args s with
    | ok v s => exact .ok rfl rfl
    | error e s => exact .error e rfl
  report _ _ _ hs := by rw [hs]

/-- A host that is observed answers as it does otherwise, and a scan asks it for no call. -/
theorem alike_observed (host : Host σ) :
    host.observed.Alike .scan (fun s s' => s.1 = s' ∧ ∀ r ∈ s.2, r.mode = .scan) host where
  call := nofun
  check _ code args := by
    rintro ⟨s, asked⟩ _ ⟨rfl, hasked⟩
    have hall : ∀ r ∈ (⟨.scan, code, args⟩ : Request) :: asked, r.mode = .scan :=
      List.forall_mem_cons.2 ⟨rfl, hasked⟩
    simp only [observed]
    cases host.check code args s with
    | ok v s => exact .ok rfl ⟨rfl, hall⟩
    | error e s => exact .error e ⟨rfl, hall⟩
  report text := by
    rintro ⟨s, asked⟩ _ ⟨rfl, hasked⟩
    exact ⟨rfl, hasked⟩

end Host

/-- A scan has no effect and sees no memory.  Whatever the stream, the position, the host
and the state of the machine, it leaves the variables and the stack as they were; the host
gets no call, it is only asked; and on a machine with any other variables and any other
stack it ends in the same way, with the machine in the same state otherwise, and has asked
the host the same in the same order. -/
theorem Machine.scan_pure (host : Host σ) (c : Code) (p : Nat) (m : Machine) (s : σ) :
    ((Exec.finalState (scan host c p (m, s))).1.store = m.store ∧
      (Exec.finalState (scan host c p (m, s))).1.stack = m.stack) ∧
    (forget (scan host.observed c p (m, s, [])) = scan host c p (m, s) ∧
      ∀ r ∈ (Exec.finalState (scan host.observed c p (m, s, []))).2.2, r.mode = .scan) ∧
    ∀ memory, Matches (Joint (fun n n' => n' = n.withMemory memory) Eq) Eq
      (scan host.observed c p (m, s, []))
      (scan host.observed c p (m.withMemory memory, s, [])) := by
  have hown : m.withMemory (m.store, m.stack) = m := rfl
  refine ⟨?_, ?_, fun memory => ?_⟩
  · have hscan := scan_matches host.alike_refl c p m (m.store, m.stack) (m.store, m.stack)
      (s := s) rfl
    rw [hown] at hscan
    obtain ⟨⟨base, hfinal, _⟩, _⟩ := hscan.finalState
    rw [hfinal]
    exact ⟨rfl, rfl⟩
  · have hscan := scan_matches host.alike_observed c p m (m.store, m.stack) (m.store, m.stack)
      (s := (s, [])) ⟨rfl, fun _ hr => nomatch hr⟩
    rw [hown] at hscan
    refine ⟨hscan.forget fun w w' hw => ?_, hscan.finalState.2.2⟩
    obtain ⟨n, s⟩ := w
    obtain ⟨n', s'⟩ := w'
    obtain ⟨⟨base, rfl, rfl⟩, rfl, _⟩ := hw
    rfl
  · have hscan := scan_matches host.observed.alike_refl c p m (m.store, m.stack) memory
      (s := (s, [])) rfl
    rw [hown] at hscan
    refine hscan.mono fun w w' hw => ?_
    obtain ⟨n, s⟩ := w
    obtain ⟨n', s'⟩ := w'
    obtain ⟨⟨base, rfl, rfl⟩, hs⟩ := hw
    exact ⟨rfl, hs⟩

end ScriptMachine
