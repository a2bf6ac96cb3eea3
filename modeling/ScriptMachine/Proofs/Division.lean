/-
  ScriptMachine.Proofs.Division

  Quotients and remainders of integers.  Over machine words the quotient is cut off toward
  zero and wraps around in one case, where the least integer is divided by -1; the remainder
  never wraps around.  Whatever the two integers, the product of the quotient and the divisor
  with the remainder added is the dividend (`Value.integers_divide`).
-/

import ScriptMachine.Value.Arithmetic

namespace ScriptMachine

-- ============================================================================
-- Machine words
-- ============================================================================

/-- What wraps around in the quotient wraps back in the product. -/
theorem quotient_mul_add_remainder (l r : Int64) : l / r * r + l % r = l := by
  apply Int64.toInt_inj.1
  calc (l / r * r + l % r).toInt
      = (l.toInt.tdiv r.toInt * r.toInt + l.toInt.tmod r.toInt).bmod (2 ^ 64) := by
        rw [Int64.toInt_add, Int64.toInt_mul, Int64.toInt_div, Int64.toInt_mod,
          Int.bmod_mul_bmod, Int.bmod_add_bmod]
    _ = l.toInt.bmod (2 ^ 64) := by rw [Int.tdiv_mul_add_tmod]
    _ = l.toInt := l.toInt_bmod

/-- The quotient that wraps around is the only one. -/
theorem toInt_quotient {l r : Int64} (h : ¬(l = Int64.minValue ∧ r = -1)) :
    (l / r).toInt = l.toInt.tdiv r.toInt := by
  by_cases hl : l = Int64.minValue
  · exact Int64.toInt_div_of_ne_right l r fun hr => h ⟨hl, hr⟩
  · exact Int64.toInt_div_of_ne_left l r hl

theorem toInt_ne_zero {r : Int64} (h : r ≠ 0) : r.toInt ≠ 0 :=
  fun hr => h (Int64.toInt_inj.1 hr)

/-- A remainder is smaller than the divisor. -/
theorem natAbs_remainder_lt (l : Int64) {r : Int64} (h : r ≠ 0) :
    (l % r).toInt.natAbs < r.toInt.natAbs := by
  rw [Int64.toInt_mod, Int.natAbs_tmod]
  exact Nat.mod_lt _ (Int.natAbs_pos.2 (toInt_ne_zero h))

/-- A remainder has the sign of the dividend, unless it is zero. -/
theorem sign_remainder (l r : Int64) : l % r = 0 ∨ (l % r).toInt.sign = l.toInt.sign := by
  have hsign := Int.sign_tmod l.toInt r.toInt
  rw [← Int64.toInt_mod] at hsign
  split at hsign
  · exact .inl (Int64.toInt_inj.1 (Int.sign_eq_zero_iff_zero.1 hsign))
  · exact .inr hsign

-- ============================================================================
-- Integers as values
-- ============================================================================

namespace Value

/-- A zero divisor leaves the dividend, as quotient and as remainder. -/
theorem divide_zero (l : Int64) :
    divide (int l) (int 0) = .ok (int l) ∧ modulo (int l) (int 0) = .ok (int l) :=
  ⟨rfl, rfl⟩

theorem divide_of_ne_zero (l : Int64) {r : Int64} (h : r ≠ 0) :
    divide (int l) (int r) = .ok (int (l / r)) ∧ modulo (int l) (int r) = .ok (int (l % r)) := by
  have hdivide : divide (int l) (int r) = .ok (int (if r = 0 then l else l / r)) := rfl
  have hmodulo : modulo (int l) (int r) = .ok (int (if r = 0 then l else l % r)) := rfl
  rw [hdivide, hmodulo, if_neg h, if_neg h]
  exact ⟨rfl, rfl⟩

/-- The quotient times the divisor and the remainder. -/
theorem sum_multiply (q r m : Int64) :
    (do sum (← multiply (int q) (int r)) (int m)) = .ok (int (q * r + m)) := rfl

/-- Integers are divided consistently.  Any two of them have a quotient and a remainder, and
the product of the quotient and the divisor with the remainder added is the dividend, also
where the divisor is zero or the quotient wraps around.  Unless the divisor is zero, the
remainder is smaller than it and has the sign of the dividend or none; and the quotient is
that of the integers, cut off toward zero, but for the one that wraps around. -/
theorem integers_divide (l r : Int64) :
    ∃ q m : Int64, divide (int l) (int r) = .ok (int q) ∧ modulo (int l) (int r) = .ok (int m) ∧
      (do sum (← multiply (int q) (int r)) (int m)) = .ok (int l) ∧
      (r ≠ 0 → m.toInt.natAbs < r.toInt.natAbs ∧ (m = 0 ∨ m.toInt.sign = l.toInt.sign)) ∧
      (r ≠ 0 → ¬(l = Int64.minValue ∧ r = -1) → q.toInt = l.toInt.tdiv r.toInt) := by
  by_cases hr : r = 0
  · subst hr
    obtain ⟨hquotient, hremainder⟩ := divide_zero l
    refine ⟨l, l, hquotient, hremainder, ?_, fun h => absurd rfl h, fun h => absurd rfl h⟩
    rw [sum_multiply, Int64.mul_zero, Int64.zero_add]
  · obtain ⟨hquotient, hremainder⟩ := divide_of_ne_zero l hr
    refine ⟨l / r, l % r, hquotient, hremainder, ?_, fun _ => ?_, fun _ => toInt_quotient⟩
    · rw [sum_multiply, quotient_mul_add_remainder]
    · exact ⟨natAbs_remainder_lt l hr, sign_remainder l r⟩

/-- The least integer divided by -1 is the quotient that wraps around. -/
example : divide (int Int64.minValue) (int (-1)) = .ok (int Int64.minValue) := rfl

end Value

end ScriptMachine
