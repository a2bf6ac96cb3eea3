/-
  ScriptMachine.Proofs.Capacity

  Variable memory is a map of limited size.  Whatever was stored and cleared before, it has
  at most 65536 variables (`Store.size_behind_le`); with fewer it takes any value, and what it
  takes changes one variable only.  With as many it is full and refuses every value, also one
  for a variable that it has (`Store.bounded_map`).
-/

import ScriptMachine.Machine.Run

namespace ScriptMachine

namespace Store

-- ============================================================================
-- One value
-- ============================================================================

section
variable {s t : Store} {name : String} {v : Value}

/-- A value is refused exactly when there are too many variables. -/
theorem store_eq_error_iff {e : Error} :
    s.store name v = .error e ↔ 65535 < s.size ∧ e = .of .tooManyVariables := by
  unfold store
  split
  · rename_i hfull
    simp [hfull, eq_comm]
  · rename_i hroom
    simp [hroom]

theorem store_eq_ok (h : s.size ≤ 65535) : s.store name v = .ok ⟨s.vars.insert name v⟩ :=
  if_neg (Nat.not_lt.2 h)

theorem size_le_of_store (h : s.store name v = .ok t) : s.size ≤ 65535 := by
  refine Nat.not_lt.1 fun hfull => ?_
  rw [store_eq_error_iff.2 ⟨hfull, rfl⟩] at h
  cases h

/-- There is one variable more exactly when the name is new. -/
theorem size_store (h : s.store name v = .ok t) :
    t.size = if s.contains name then s.size else s.size + 1 := by
  rw [store_eq_ok (size_le_of_store h)] at h
  obtain rfl := Except.ok.inj h
  exact Std.TreeMap.size_insert

theorem fetch_store (h : s.store name v = .ok t) : t.fetch name = v := by
  rw [fetch, get?_store h, if_pos rfl]
  rfl

end

-- ============================================================================
-- Requests in order
-- ============================================================================

/-- What variable memory is asked for. -/
inductive Request where
  | store (name : String) (v : Value)
  | clear

/-- The memory behind a request; where a value is refused, the machine goes on with what it
had (`change_setVariable`). -/
def answer (s : Store) : Request → Store
  | .store name v =>
    match s.store name v with
    | .ok t => t
    | .error _ => s
  | .clear => initial

section
variable {s t : Store} {name : String} {v : Value} {e : Error}

theorem answer_of_ok (h : s.store name v = .ok t) : s.answer (.store name v) = t := by
  simp only [answer, h]

theorem answer_of_error (h : s.store name v = .error e) : s.answer (.store name v) = s := by
  simp only [answer, h]

end

/-- The memory behind all requests so far. -/
def behind (rs : List Request) : Store :=
  rs.foldl answer initial

theorem behind_append (rs : List Request) (r : Request) :
    behind (rs ++ [r]) = (behind rs).answer r := by
  rw [behind, List.foldl_append]
  rfl

theorem size_answer_le {s : Store} (h : s.size ≤ 65536) (r : Request) :
    (s.answer r).size ≤ 65536 := by
  cases r with
  | clear => exact show initial.size ≤ 65536 by decide
  | store name v =>
    cases hstored : s.store name v with
    | error e =>
      rw [answer_of_error hstored]
      exact h
    | ok t =>
      have hroom := size_le_of_store hstored
      rw [answer_of_ok hstored, size_store hstored]
      split <;> omega

/-- No requests give more variables than the memory has places. -/
theorem size_behind_le (rs : List Request) : (behind rs).size ≤ 65536 := by
  have hfold : ∀ s : Store, s.size ≤ 65536 → (rs.foldl answer s).size ≤ 65536 := by
    induction rs with
    | nil => exact fun s h => h
    | cons r rs ih => exact fun s h => ih (s.answer r) (size_answer_le h r)
  exact hfold initial (by decide)

/-- A step of the machine that stores a variable; where that is refused, it leaves the
machine and the host as they were. -/
theorem change_setVariable {σ : Type} (m : Machine) (h : σ) (name : String) (v : Value) :
    Exec.change (·.setVariable name v) (m, h) =
      match m.store.store name v with
      | .ok t => .ok () ({ m with store := t }, h)
      | .error e => .error e (m, h) := by
  simp only [Exec.change, Machine.setVariable]
  cases m.store.store name v <;> rfl

/-- Variable memory is a map of limited size.  Behind any requests a value is refused exactly
when there are more than 65535 variables, and then there are 65536; that is a lack of memory,
and it changes nothing, neither here nor in a machine.  A value that is not refused is what
its variable reads as; all other variables stay as they are, and there is one more exactly
when the name is new. -/
theorem bounded_map (rs : List Request) (name : String) (v : Value) :
    ((∃ e, (behind rs).store name v = .error e) ↔ 65535 < (behind rs).size) ∧
    (∀ e, (behind rs).store name v = .error e →
      e.kind = .outOfMemory ∧ (behind rs).size = 65536 ∧
      behind (rs ++ [.store name v]) = behind rs ∧
      ∀ {σ : Type} (m : Machine) (h : σ), m.store = behind rs →
        Exec.change (·.setVariable name v) (m, h) = .error e (m, h)) ∧
    ∀ t, (behind rs).store name v = .ok t →
      behind (rs ++ [.store name v]) = t ∧ t.fetch name = v ∧
      (∀ other, other ≠ name → t.get? other = (behind rs).get? other) ∧
      t.size = if (behind rs).contains name then (behind rs).size else (behind rs).size + 1 := by
  refine ⟨⟨?_, ?_⟩, fun e hrefused => ?_, fun t hstored => ?_⟩
  · rintro ⟨e, hrefused⟩
    exact (store_eq_error_iff.1 hrefused).1
  · intro hfull
    exact ⟨_, store_eq_error_iff.2 ⟨hfull, rfl⟩⟩
  · obtain ⟨hfull, hcause⟩ := store_eq_error_iff.1 hrefused
    have hbound := size_behind_le rs
    refine ⟨?_, by omega, ?_, fun m h hm => ?_⟩
    · rw [hcause]
      rfl
    · rw [behind_append, answer_of_error hrefused]
    · rw [change_setVariable, hm, hrefused]
  · refine ⟨?_, fetch_store hstored, fun other hother => ?_, size_store hstored⟩
    · rw [behind_append, answer_of_ok hstored]
    · rw [get?_store hstored, if_neg hother.symm]

end Store

end ScriptMachine
