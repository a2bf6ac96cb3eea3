/-
  ScriptMachine.Proofs.Running

  Runs of the machine.  A run goes on from one state to another, fails with a kind
  of error, halts, or lasts as long as one likes; the four are put together along
  the way (`Goes.trans` and its companions), and a machine does only one of the
  last three.
-/

import ScriptMachine.Proofs.Execution

namespace ScriptMachine

/-- The host whose functions all give 0. -/
def Host.mute : Host Unit where
  call _ _ := pure default

namespace Exec

variable {σ : Type} {host : Host σ} {w w' w'' : Machine × σ}

/-! ## Sequences of steps -/

theorem steps_succ (n : Nat) (w : Machine × σ) :
    steps host (n + 1) w =
      match step host w with
      | .ok true w' => steps host n w'
      | .ok false w' => .ok true w'
      | .error e w' => .error e w' := by
  show (step host >>= fun b => if b then steps host n else return true) w = _
  simp only [bind, EStateM.bind]
  cases step host w with
  | ok b w' => cases b <;> rfl
  | error e w' => rfl

/-- Steps that were not the last, and more steps. -/
theorem steps_add {k : Nat} (h : steps host k w = .ok false w') (n : Nat) :
    steps host (k + n) w = steps host n w' := by
  induction k generalizing w with
  | zero =>
    cases h
    rw [Nat.zero_add]
  | succ k ih =>
    rw [steps_succ] at h
    rw [Nat.succ_add, steps_succ]
    split at h
    · exact ih h
    · cases h
    · cases h

/-- A run that has not ended yet. -/
theorem steps_of_le {k n : Nat} (h : steps host k w = .ok false w') (hn : n ≤ k) :
    ∃ v, steps host n w = .ok false v := by
  induction n generalizing w k with
  | zero => exact ⟨w, rfl⟩
  | succ n ih =>
    obtain ⟨k, rfl⟩ : ∃ j, k = j + 1 := ⟨k - 1, by omega⟩
    rw [steps_succ] at h ⊢
    split at h
    · exact ih h (by omega)
    · cases h
    · cases h

/-! ## How a run goes on -/

/-- The machine comes from `w` to `w'`. -/
def Goes (host : Host σ) (w w' : Machine × σ) : Prop :=
  ∃ n, steps host n w = .ok false w'

/-- The machine stops with an error of the kind. -/
def Fails (host : Host σ) (w : Machine × σ) (kind : ErrorKind) : Prop :=
  ∃ n e w', steps host n w = .error e w' ∧ e.kind = kind

/-- The machine stops and leaves these variables. -/
def Halts (host : Host σ) (w : Machine × σ) (store : Store) : Prop :=
  ∃ n w', steps host n w = .ok true w' ∧ w'.1.store = store

/-- The machine takes at least `n` steps. -/
def Lasts (host : Host σ) (w : Machine × σ) (n : Nat) : Prop :=
  ∃ w', steps host n w = .ok false w'

theorem Goes.refl (host : Host σ) (w : Machine × σ) : Goes host w w :=
  ⟨0, rfl⟩

theorem Goes.trans (h : Goes host w w') (k : Goes host w' w'') : Goes host w w'' := by
  obtain ⟨n, hn⟩ := h
  obtain ⟨l, hl⟩ := k
  exact ⟨n + l, by rw [steps_add hn, hl]⟩

theorem Goes.fails {kind : ErrorKind} (h : Goes host w w') (k : Fails host w' kind) :
    Fails host w kind := by
  obtain ⟨n, hn⟩ := h
  obtain ⟨l, e, v, hl, hk⟩ := k
  exact ⟨n + l, e, v, by rw [steps_add hn, hl], hk⟩

theorem Goes.halts {store : Store} (h : Goes host w w') (k : Halts host w' store) :
    Halts host w store := by
  obtain ⟨n, hn⟩ := h
  obtain ⟨l, v, hl, hs⟩ := k
  exact ⟨n + l, v, by rw [steps_add hn, hl], hs⟩

theorem Goes.lasts {n : Nat} (h : Goes host w w') (k : Lasts host w' n) : Lasts host w n := by
  obtain ⟨l, hl⟩ := h
  obtain ⟨v, hv⟩ := k
  exact steps_of_le (k := l + n) (by rw [steps_add hl, hv]) (by omega)

/-- One step more, and `n` steps behind it. -/
theorem lasts_succ {n : Nat} (h : steps host 1 w = .ok false w') (k : Lasts host w' n) :
    Lasts host w (n + 1) := by
  obtain ⟨v, hv⟩ := k
  exact ⟨v, by rw [Nat.add_comm, steps_add h, hv]⟩

/-! ## A run does one thing -/

/-- What ends a run stays its end, however many steps are asked for. -/
theorem steps_of_end {n l : Nat} {r : EStateM.Result Error (Machine × σ) Bool}
    (h : steps host n w = r) (hr : ∀ v, r ≠ .ok false v) (hl : n ≤ l) : steps host l w = r := by
  induction n generalizing w l with
  | zero => exact absurd h.symm (hr w)
  | succ n ih =>
    obtain ⟨l, rfl⟩ : ∃ j, l = j + 1 := ⟨l - 1, by omega⟩
    rw [steps_succ] at h ⊢
    split at h
    · exact ih h (by omega)
    · exact h
    · exact h

theorem steps_end_unique {n l : Nat} {r r' : EStateM.Result Error (Machine × σ) Bool}
    (h : steps host n w = r) (hr : ∀ v, r ≠ .ok false v)
    (h' : steps host l w = r') (hr' : ∀ v, r' ≠ .ok false v) : r = r' := by
  rw [← steps_of_end h hr (Nat.le_max_left n l), steps_of_end h' hr' (Nat.le_max_right n l)]

theorem Halts.unique {s t : Store} (h : Halts host w s) (k : Halts host w t) : s = t := by
  obtain ⟨n, v, hn, rfl⟩ := h
  obtain ⟨l, u, hl, rfl⟩ := k
  cases steps_end_unique hn (by simp) hl (by simp)
  rfl

theorem Halts.not_fails {s : Store} {kind : ErrorKind} (h : Halts host w s) :
    ¬ Fails host w kind := by
  rintro ⟨l, e, u, hl, _⟩
  obtain ⟨n, v, hn, rfl⟩ := h
  cases steps_end_unique hn (by simp) hl (by simp)

theorem Fails.unique {kind kind' : ErrorKind} (h : Fails host w kind) (k : Fails host w kind') :
    kind = kind' := by
  obtain ⟨n, e, v, hn, rfl⟩ := h
  obtain ⟨l, f, u, hl, rfl⟩ := k
  cases steps_end_unique hn (by simp) hl (by simp)
  rfl

/-- A run that ends does not last. -/
theorem not_lasts_of_end {n : Nat} {r : EStateM.Result Error (Machine × σ) Bool}
    (h : steps host n w = r) (hr : ∀ v, r ≠ .ok false v) : ∃ n, ¬ Lasts host w n := by
  refine ⟨n, ?_⟩
  rintro ⟨u, hu⟩
  exact hr u (h.symm.trans hu)

theorem Halts.not_lasts {s : Store} (h : Halts host w s) : ∃ n, ¬ Lasts host w n := by
  obtain ⟨n, v, hn, rfl⟩ := h
  exact not_lasts_of_end hn (by simp)

theorem Fails.not_lasts {kind : ErrorKind} (h : Fails host w kind) : ∃ n, ¬ Lasts host w n := by
  obtain ⟨n, e, v, hn, rfl⟩ := h
  exact not_lasts_of_end hn (by simp)

/-! ## One instruction -/

section
variable {m : Machine} {s : σ} {i : Instruction} (hl : i.Legible)
  (h : m.code.Holds m.position i.bytes) (hm : m.running = true)
include hl h hm

/-- An instruction that is performed is a run of one step, which has ended where the
instruction was the last. -/
theorem steps_of_perform (more : Bool)
    (hp : i.perform host (m.position + i.bytes.length) (m, s) = .ok more w) :
    steps host 1 (m, s) = .ok (!more) w := by
  have hi : Agrees (instruction host (m, s))
      (i.perform host (m.position + i.bytes.length) (m, s)) :=
    instruction_of_holds hl h
  rw [hp] at hi
  simp only [Agrees] at hi
  rw [steps_succ, step, if_pos hm]
  simp only [hi]
  cases more <;> rfl

theorem step_of_perform_error {e : Error}
    (hp : i.perform host (m.position + i.bytes.length) (m, s) = .error e w) :
    ∃ v, step host (m, s) = .error (e.atAddress m.position) v := by
  have hi : Agrees (instruction host (m, s))
      (i.perform host (m.position + i.bytes.length) (m, s)) :=
    instruction_of_holds hl h
  rw [hp] at hi
  obtain ⟨q, hi⟩ := hi
  rw [step, if_pos hm]
  simp only [hi]
  exact ⟨_, rfl⟩

theorem fails_of_perform {e : Error}
    (hp : i.perform host (m.position + i.bytes.length) (m, s) = .error e w) :
    Fails host (m, s) e.kind := by
  obtain ⟨v, hv⟩ := step_of_perform_error hl h hm hp
  exact ⟨1, e.atAddress m.position, v, by rw [steps_succ, hv], Error.kind_atAddress _ _⟩

theorem halts_of_perform
    (hp : i.perform host (m.position + i.bytes.length) (m, s) = .ok false w) :
    Halts host (m, s) w.1.store :=
  ⟨1, w, steps_of_perform hl h hm false hp, rfl⟩

end

section
variable {m : Machine} {h : σ} {how : Assignment} {name : String} {e : Expression} {q : Nat}
  (hi : m.code.Has m.position (.assign how name e) q) (hmode : m.mode = .run)
  (hrunning : m.running = true)
include hi hmode hrunning

/-- An assigning instruction, whatever the position and the jumps. -/
theorem steps_assign {v : Value} {s : Store}
    (he : e.eval host .run (m.store, h) = .ok v (m.store, h))
    (hs : (do m.store.store name (← how.combine (m.store.fetch name) v)) = .ok s) :
    steps host 1 (m, h) = .ok false ({ m with position := q, store := s }, h) := by
  refine steps_of_perform hi.legible hi.holds hrunning true ?_
  rw [← hi.next]
  have hwork : work q (e.eval host) (m, h) = .ok v ({ m with position := q }, h) := by
    simp only [work, hmode, he]
  have heffect : effect
      (fun m => do m.setVariable name (← how.combine (m.store.fetch name) v))
      ({ m with position := q }, h) = .ok () ({ m with position := q, store := s }, h) := by
    simp only [effect, change, Machine.setVariable, hmode, bind, pure, reduceCtorEq, if_false]
      at hs ⊢
    cases hc : how.combine (m.store.fetch name) v with
    | error err =>
      rw [hc] at hs
      cases hs
    | ok u =>
      rw [hc] at hs
      simp only [Except.bind] at hs ⊢
      rw [hs]
      rfl
  show EStateM.bind (work q (e.eval host)) _ (m, h) = _
  rw [EStateM.bind, hwork]
  show EStateM.bind (effect _) _ ({ m with position := q }, h) = _
  rw [EStateM.bind, heffect]
  rfl

/-- An assigning instruction fails with the error of its expression, or with the one of
combining and storing its value. -/
theorem fails_assign {err : Error}
    (herr : e.eval host .run (m.store, h) = .error err (m.store, h) ∨
      ∃ v, e.eval host .run (m.store, h) = .ok v (m.store, h) ∧
        (do m.store.store name (← how.combine (m.store.fetch name) v)) = .error err) :
    Fails host (m, h) err.kind := by
  obtain ⟨w, hw⟩ : ∃ w, (Instruction.assign how name e).perform host q (m, h) = .error err w := by
    rcases herr with heval | ⟨v, heval, hstore⟩
    · obtain ⟨w, hwork⟩ : ∃ w, work q (e.eval host) (m, h) = .error err w := by
        simp only [work, hmode, heval]
        exact ⟨_, rfl⟩
      refine ⟨w, ?_⟩
      show EStateM.bind (work q (e.eval host)) _ (m, h) = _
      rw [EStateM.bind, hwork]
    · have hwork : work q (e.eval host) (m, h) = .ok v ({ m with position := q }, h) := by
        simp only [work, hmode, heval]
      have heffect : effect
          (fun m => do m.setVariable name (← how.combine (m.store.fetch name) v))
          ({ m with position := q }, h) = .error err ({ m with position := q }, h) := by
        simp only [effect, change, Machine.setVariable, hmode, bind, reduceCtorEq, if_false]
          at hstore ⊢
        cases hc : how.combine (m.store.fetch name) v with
        | error err' =>
          rw [hc] at hstore
          exact congrArg (EStateM.Result.error · _) (Except.error.inj hstore)
        | ok u =>
          rw [hc] at hstore
          simp only [Except.bind] at hstore ⊢
          rw [hstore]
      refine ⟨({ m with position := q }, h), ?_⟩
      show EStateM.bind (work q (e.eval host)) _ (m, h) = _
      rw [EStateM.bind, hwork]
      show EStateM.bind (effect _) _ ({ m with position := q }, h) = _
      rw [EStateM.bind, heffect]
  rw [hi.next] at hw
  exact fails_of_perform hi.legible hi.holds hrunning hw

end

section
variable {m : Machine} {h : σ} {name : String} {e : Expression} {q : Nat}
  (hi : m.code.Has m.position (.assign .mov name e) q) (hmode : m.mode = .run)
  (hrunning : m.running = true)
include hi hmode hrunning

/-- A plain assignment. -/
theorem steps_mov {v : Value} {s : Store}
    (he : e.eval host .run (m.store, h) = .ok v (m.store, h)) (hs : m.store.store name v = .ok s) :
    steps host 1 (m, h) = .ok false ({ m with position := q, store := s }, h) :=
  steps_assign hi hmode hrunning he hs

/-- A plain assignment fails with the error of its expression, or with the one of storing
its value. -/
theorem fails_mov {err : Error}
    (herr : e.eval host .run (m.store, h) = .error err (m.store, h) ∨
      ∃ v, e.eval host .run (m.store, h) = .ok v (m.store, h) ∧
        m.store.store name v = .error err) :
    Fails host (m, h) err.kind :=
  fails_assign hi hmode hrunning herr

end

/-- The end of a program. -/
theorem halts_of_stop {m : Machine} {h : σ} {q : Nat} (hi : m.code.Has m.position .stop q)
    (hrunning : m.running = true) : Halts host (m, h) m.store := by
  refine halts_of_perform (w := ({ m with position := q, running := false }, h)) hi.legible
    hi.holds hrunning ?_
  rw [← hi.next]
  rfl

end Exec

end ScriptMachine
