/-
  ScriptMachine.Proofs.Ending

  Decoding ends.  Every round of a loop over the stream goes on by a byte at least, and
  every instruction by two.  So readers that may only go round a limited number of times
  come to what the readers themselves come to, as soon as there are more rounds than bytes
  left (`Eval.expressionWithin_eq`, `Code.expressionWithin_eq`), and a machine that takes
  no jumps stops after half as many steps as there are bytes, and one
  (`Machine.decoding_ends`).
-/

import ScriptMachine.Proofs.Batching
import ScriptMachine.Proofs.Outcomes

namespace ScriptMachine

variable {σ α β : Type}

-- ============================================================================
-- Evaluations with a limited number of rounds
-- ============================================================================

namespace Eval

/-- An evaluation that may also fail because it has no more rounds; then there is no error. -/
abbrev Limited (σ : Type) := EStateM (Option Failure) (Store × σ)

/-- An evaluation that has rounds enough. -/
def limited (x : Eval σ α) : Limited σ α := fun w =>
  match x w with
  | .ok a w => .ok a w
  | .error f w => .error (some f) w

/-- There are no more rounds. -/
def exhausted : Limited σ α :=
  throw none

theorem bind_eq_limited {x : Eval σ α} {f : α → Eval σ β} {y : Limited σ α}
    {g : α → Limited σ β} (hx : y = limited x) (hf : ∀ a, g a = limited (f a)) :
    y >>= g = limited (x >>= f) := by
  subst hx
  funext w
  simp only [bind, EStateM.bind, limited]
  cases x w with
  | ok a w' => exact congrFun (hf a) w'
  | error e w' => rfl

section
variable (host : Host σ) (mode : Mode) (c : Code)

mutual

/-- Values an expression. -/
def expressionWithin (rounds position : Nat) : Limited σ (Value × c.Past position) := do
  let (operands, operators, p) ← chainWithin rounds position
  let v ← limited (ofExcept p (settle mode operands operators))
  return (v, p)
termination_by (rounds, 4)

/-- Values the operands of an expression; each takes a round. -/
def chainWithin (rounds position : Nat) :
    Limited σ (List Value × List Operator × c.Past position) :=
  match rounds with
  | 0 => exhausted
  | rounds + 1 => do
    let (v, p) ← operandWithin rounds position
    let (b, q) ← limited (ofRead (c.byte p))
    match Operator.ofByte? b with
    | none => throw (some ⟨(Error.of (.unknownOperator b)).atAddress p, q⟩)
    | some .close => return ([v], [], p.trans q)
    | some op =>
      let (operands, operators, r) ← chainWithin rounds q
      return (v :: operands, op :: operators, p.trans (q.trans r))
termination_by (rounds, 3)

/-- Values one operand. -/
def operandWithin (rounds position : Nat) : Limited σ (Value × c.Past position) := do
  let (tag, p) ← limited (ofRead (c.tag position))
  match tag with
  | .str =>
    let (s, q) ← limited (ofRead (c.text p))
    return (.str s, p.trans q)
  | .num =>
    let (n, q) ← limited (ofRead (c.number p))
    return (.int n, p.trans q)
  | .var =>
    let (name, q) ← limited (ofRead (c.text p))
    return (← limited (fetch name), p.trans q)
  | .call =>
    let (opcode, q) ← limited (ofRead (c.opcode p))
    if opcode = .func then
      let (v, r) ← callWithin rounds q
      return (v, p.trans (q.trans r))
    else limited (ofRead (Code.fail (.callTo opcode) position q))
  | .code => limited (ofRead (Code.fail .codeInExpression position p))
termination_by (rounds, 2)

/-- Values the arguments of a call and makes it. -/
def callWithin (rounds position : Nat) : Limited σ (Value × c.Past position) := do
  let (code, p) ← limited (ofRead (c.word position))
  let (args, q) ← argumentsWithin rounds p
  let v ← limited (invoke host mode code args q)
  return (v, p.trans q)
termination_by (rounds, 1)

/-- Values the arguments of a call; each takes a round. -/
def argumentsWithin (rounds position : Nat) : Limited σ (List Value × c.Past position) :=
  match rounds with
  | 0 => exhausted
  | rounds + 1 => do
    let (b, p) ← limited (ofRead (c.byte position))
    if b = paramsEnd then return ([], p)
    else
      match Param.ofByte? b with
      | none => throw (some ⟨(Error.of (.unknownParam b)).atAddress position, p⟩)
      | some param =>
        let (v, q) ← expressionWithin rounds p
        let v ← limited (ofExcept q.1 (argument param v))
        let (args, r) ← argumentsWithin rounds q
        return (v :: args, p.trans (q.trans r))
termination_by (rounds, 0)

end

mutual

/-- An expression has no more rounds than there are bytes left. -/
theorem expressionWithin_eq {rounds p : Nat} (h : c.size - p < rounds) :
    expressionWithin host mode c rounds p = limited (expression host mode c p) := by
  rw [expressionWithin, expression]
  exact bind_eq_limited (chainWithin_eq h) fun r => bind_eq_limited rfl fun v => rfl
termination_by (rounds, 4)

theorem chainWithin_eq {rounds p : Nat} (h : c.size - p < rounds) :
    chainWithin host mode c rounds p = limited (chain host mode c p) := by
  match rounds, h with
  | rounds + 1, h =>
    rw [chainWithin, chain]
    refine bind_eq_limited (operandWithin_eq (Nat.le_of_lt_succ h)) fun v => ?_
    refine bind_eq_limited rfl fun b => ?_
    have hlt : c.size - b.2.1 < rounds := by
      have := v.2.2
      have := b.2.2
      omega
    dsimp only
    cases Operator.ofByte? b.1 with
    | none => rfl
    | some op =>
      cases op with
      | close => rfl
      | _ => exact bind_eq_limited (chainWithin_eq hlt) fun r => rfl
termination_by (rounds, 3)

theorem operandWithin_eq {rounds p : Nat} (h : c.size - p ≤ rounds) :
    operandWithin host mode c rounds p = limited (operand host mode c p) := by
  rw [operandWithin, operand]
  refine bind_eq_limited rfl ?_
  rintro ⟨tag, q⟩
  cases tag with
  | str => exact bind_eq_limited rfl fun s => rfl
  | num => exact bind_eq_limited rfl fun n => rfl
  | var => exact bind_eq_limited rfl fun name => bind_eq_limited rfl fun v => rfl
  | call =>
    refine bind_eq_limited rfl fun opcode => ?_
    have hle : c.size - opcode.2.1 ≤ rounds := by
      have := q.2
      have := opcode.2.2
      omega
    dsimp only
    by_cases hfunc : opcode.1 = .func
    · rw [if_pos hfunc, if_pos hfunc]
      exact bind_eq_limited (callWithin_eq hle) fun v => rfl
    · rw [if_neg hfunc, if_neg hfunc]
  | code => rfl
termination_by (rounds, 2)

theorem callWithin_eq {rounds p : Nat} (h : c.size - p ≤ rounds) :
    callWithin host mode c rounds p = limited (call host mode c p) := by
  rw [callWithin, call]
  refine bind_eq_limited rfl fun code => ?_
  have hlt : c.size - code.2.1 < rounds := by
    have := code.2.2
    omega
  exact bind_eq_limited (argumentsWithin_eq hlt) fun args => bind_eq_limited rfl fun v => rfl
termination_by (rounds, 1)

theorem argumentsWithin_eq {rounds p : Nat} (h : c.size - p < rounds) :
    argumentsWithin host mode c rounds p = limited (arguments host mode c p) := by
  match rounds, h with
  | rounds + 1, h =>
    rw [argumentsWithin, arguments]
    refine bind_eq_limited rfl fun b => ?_
    have hlt : c.size - b.2.1 < rounds := by
      have := b.2.2
      omega
    dsimp only
    by_cases hend : b.1 = paramsEnd
    · rw [if_pos hend, if_pos hend]
      rfl
    · rw [if_neg hend, if_neg hend]
      cases Param.ofByte? b.1 with
      | none => rfl
      | some param =>
        refine bind_eq_limited (expressionWithin_eq hlt) fun v => bind_eq_limited rfl fun u => ?_
        have hlt' : c.size - v.2.1 < rounds := by
          have := v.2.2
          omega
        exact bind_eq_limited (argumentsWithin_eq hlt') fun args => rfl
termination_by (rounds, 0)

end

end

end Eval

-- ============================================================================
-- Disassembly with a limited number of rounds
-- ============================================================================

namespace Code

/-- A read that has rounds enough. -/
def limited (x : Except Failure α) : Except (Option Failure) α :=
  x.mapError some

theorem bind_eq_limited {x : Except Failure α} {f : α → Except Failure β}
    {y : Except (Option Failure) α} {g : α → Except (Option Failure) β} (hx : y = limited x)
    (hf : ∀ a, x = .ok a → g a = limited (f a)) : y >>= g = limited (x >>= f) := by
  subst hx
  cases x with
  | ok a => exact hf a rfl
  | error e => rfl

variable (c : Code)

mutual

/-- Reads an expression; each operand takes a round. -/
def expressionWithin (rounds position : Nat) :
    Except (Option Failure) (Expression × c.Past position) :=
  match rounds with
  | 0 => throw none
  | rounds + 1 => do
    let (operand, p) ← operandWithin rounds position
    let (b, q) ← limited (c.byte p)
    match Operator.ofByte? b with
    | none => throw (some ⟨.of (.unknownOperator b), q⟩)
    | some .close => return (.last operand, p.trans q)
    | some op =>
      let (rest, r) ← expressionWithin rounds q
      return (.more operand op rest, p.trans (q.trans r))
termination_by (rounds, 2)

/-- Reads an operand with its tag. -/
def operandWithin (rounds position : Nat) :
    Except (Option Failure) (Operand × c.Past position) := do
  let (tag, p) ← limited (c.tag position)
  match tag with
  | .str =>
    let (s, q) ← limited (c.text p)
    return (.str s, p.trans q)
  | .num =>
    let (n, q) ← limited (c.number p)
    return (.num n, p.trans q)
  | .var =>
    let (s, q) ← limited (c.text p)
    return (.var s, p.trans q)
  | .call =>
    let (opcode, q) ← limited (c.opcode p)
    if opcode = .func then
      let (code, r) ← limited (c.word q)
      let (args, t) ← argsWithin rounds r
      return (.call code args, p.trans (q.trans (r.trans t)))
    else limited (fail (.callTo opcode) position q)
  | .code => limited (fail .codeInExpression position p)
termination_by (rounds, 1)

/-- Reads the arguments of a call; each takes a round. -/
def argsWithin (rounds position : Nat) : Except (Option Failure) (Args × c.Past position) :=
  match rounds with
  | 0 => throw none
  | rounds + 1 => do
    let (b, p) ← limited (c.byte position)
    if b = paramsEnd then return (.nil, p)
    else
      match Param.ofByte? b with
      | none => throw (some ⟨.of (.unknownParam b), p⟩)
      | some param =>
        let (value, q) ← expressionWithin rounds p
        let (rest, r) ← argsWithin rounds q
        return (.cons param value rest, p.trans (q.trans r))
termination_by (rounds, 0)

end

/-- Reads the instructions from a position on; each takes a round. -/
def instructionsWithin (rounds : Nat) (done : List (Nat × Instruction)) (position : Nat) :
    Except (Option Failure) (List (Nat × Instruction)) :=
  match rounds with
  | 0 => throw none
  | rounds + 1 =>
    if c.atEnd position then return done.reverse
    else do
      let (i, p) ← limited (c.instruction position)
      instructionsWithin rounds ((position, i) :: done) p

mutual

/-- An expression has no more rounds than there are bytes left. -/
theorem expressionWithin_eq {rounds p : Nat} (h : c.size - p < rounds) :
    c.expressionWithin rounds p = limited (c.expression p) := by
  match rounds, h with
  | rounds + 1, h =>
    rw [expressionWithin, expression]
    refine bind_eq_limited (operandWithin_eq (Nat.le_of_lt_succ h)) fun o _ => ?_
    refine bind_eq_limited rfl fun b _ => ?_
    have hlt : c.size - b.2.1 < rounds := by
      have := o.2.2
      have := b.2.2
      omega
    dsimp only
    cases Operator.ofByte? b.1 with
    | none => rfl
    | some op =>
      cases op with
      | close => rfl
      | _ => exact bind_eq_limited (expressionWithin_eq hlt) fun r _ => rfl
termination_by (rounds, 2)

theorem operandWithin_eq {rounds p : Nat} (h : c.size - p ≤ rounds) :
    c.operandWithin rounds p = limited (c.operand p) := by
  rw [operandWithin, operand]
  refine bind_eq_limited rfl ?_
  rintro ⟨tag, q⟩ _
  cases tag with
  | str => exact bind_eq_limited rfl fun s _ => rfl
  | num => exact bind_eq_limited rfl fun n _ => rfl
  | var => exact bind_eq_limited rfl fun s _ => rfl
  | call =>
    refine bind_eq_limited rfl fun opcode _ => ?_
    dsimp only
    by_cases hfunc : opcode.1 = .func
    · rw [if_pos hfunc, if_pos hfunc]
      refine bind_eq_limited rfl fun code _ => ?_
      have hlt : c.size - code.2.1 < rounds := by
        have := q.2
        have := opcode.2.2
        have := code.2.2
        omega
      exact bind_eq_limited (argsWithin_eq hlt) fun as _ => rfl
    · rw [if_neg hfunc, if_neg hfunc]
  | code => rfl
termination_by (rounds, 1)

theorem argsWithin_eq {rounds p : Nat} (h : c.size - p < rounds) :
    c.argsWithin rounds p = limited (c.args p) := by
  match rounds, h with
  | rounds + 1, h =>
    rw [argsWithin, args]
    refine bind_eq_limited rfl fun b _ => ?_
    have hlt : c.size - b.2.1 < rounds := by
      have := b.2.2
      omega
    dsimp only
    by_cases hend : b.1 = paramsEnd
    · rw [if_pos hend, if_pos hend]
      rfl
    · rw [if_neg hend, if_neg hend]
      cases Param.ofByte? b.1 with
      | none => rfl
      | some param =>
        refine bind_eq_limited (expressionWithin_eq hlt) fun e _ => ?_
        have hlt' : c.size - e.2.1 < rounds := by
          have := e.2.2
          omega
        exact bind_eq_limited (argsWithin_eq hlt') fun rest _ => rfl
termination_by (rounds, 0)

end

variable {c}

/-- An instruction takes two bytes. -/
theorem add_two_le_of_instruction {p : Nat} {i : Instruction} {q : c.Past p}
    (h : c.instruction p = .ok (i, q)) : p + 2 ≤ q.1 := by
  obtain ⟨⟨o, r⟩, ho, h⟩ := except_bind_eq_ok h
  obtain ⟨⟨j, t⟩, _, h⟩ := except_bind_eq_ok h
  cases h
  exact Nat.le_trans (add_two_le_of_opcode ho) t.2.1

theorem instructionsWithin_eq {rounds p : Nat} (done : List (Nat × Instruction))
    (h : (c.size - p) / 2 < rounds) :
    c.instructionsWithin rounds done p = limited (c.instructionsFrom done p) := by
  induction rounds generalizing done p with
  | zero => cases h
  | succ rounds ih =>
    rw [instructionsWithin, instructionsFrom]
    by_cases hend : c.atEnd p = true
    · rw [if_pos hend, if_pos hend]
      rfl
    · rw [if_neg hend, if_neg hend]
      refine bind_eq_limited rfl ?_
      rintro ⟨i, q⟩ hi
      have htwo := add_two_le_of_instruction hi
      have hsize := q.2.2
      exact ih _ (by omega)

end Code

-- ============================================================================
-- Steps without jumps
-- ============================================================================

namespace Exec

variable {host : Host σ}

/-- What is executed ends inside the stream, so it began inside. -/
theorem inside_of_instruction {w w' : Machine × σ} {more : Bool}
    (h : instruction host w = .ok more w') : w.1.position < w.1.code.size := by
  obtain ⟨o, v, hread, _⟩ := estate_bind_eq_ok h
  unfold read at hread
  dsimp only at hread
  split at hread
  · rename_i q _
    exact Nat.lt_of_lt_of_le q.2.1 q.2.2
  · cases hread

/-- In a scan and with jumps off a step that goes well goes on by two bytes. -/
theorem add_two_le_of_step {m : Machine} {s : σ} {more : Bool} {w : Machine × σ}
    (hrun : m.running = true) (hoff : m.mode = .scan ∨ m.gotoLock = true)
    (h : step host (m, s) = .ok more w) : m.position + 2 ≤ w.1.position := by
  have hinside : m.Inside m.mode := by
    refine ⟨?_, rfl⟩
    rw [step, if_pos hrun] at h
    split at h
    · rename_i hi
      exact Nat.le_of_lt (inside_of_instruction hi)
    · cases h
  exact (done_of_step (hinside.ready host s) hrun h).onward hoff

/-- The step never says that it was the last. -/
def GoesOn (x : Exec σ Bool) : Prop :=
  ∀ w w', x w ≠ .ok false w'

theorem goesOn_true : GoesOn (pure true : Exec σ Bool) := by
  rintro w w' ⟨⟩

theorem GoesOn.bind {x : Exec σ α} {f : α → Exec σ Bool} (hf : ∀ a, GoesOn (f a)) :
    GoesOn (x >>= f) := by
  intro w w' h
  obtain ⟨a, v, _, h⟩ := estate_bind_eq_ok h
  exact hf a v w' h

/-- Nothing but `stop` is the last instruction, and it stops the machine. -/
theorem not_running_of_instruction {w w' : Machine × σ} (h : instruction host w = .ok false w') :
    w'.1.running = false := by
  obtain ⟨opcode, v, _, h⟩ := estate_bind_eq_ok h
  -- all other instructions end with the same result
  have hresult : ∀ {γ : Type} {x : Exec σ γ}, GoesOn (x >>= fun _ => pure true) :=
    .bind fun _ => goesOn_true
  revert h
  cases opcode with
  | stop =>
    rintro ⟨⟩
    rfl
  | mov | add | sub | mul | div | mod | inc | dec | func => exact fun h => absurd h (hresult v w')
  | goto => exact fun h => absurd h (GoesOn.bind (fun _ => hresult) v w')
  | push | pop =>
    exact fun h => absurd h (GoesOn.bind (fun _ => .bind fun _ => hresult) v w')
  | cmp =>
    refine fun h => absurd h (GoesOn.bind (fun _ => .bind fun _ => ?_) v w')
    split
    · exact hresult
    · exact goesOn_true
  | case =>
    refine fun h => absurd h (GoesOn.bind (fun _ => .bind fun _ => .bind fun _ => ?_) v w')
    dsimp only
    split
    · split
      · exact goesOn_true
      · exact hresult
      · exact hresult
    · exact goesOn_true

/-- The run is over: the machine, stopped or failed, does not run. -/
def Over : EStateM.Result Error (Machine × σ) Unit → Prop
  | .ok _ w => w.1.running = false
  | .error _ w => w.1.running = false

theorem not_running_of_step {w w' : Machine × σ} (h : step host w = .ok false w') :
    w'.1.running = false := by
  rw [step] at h
  split at h
  · split at h
    · rename_i hi
      cases h
      exact not_running_of_instruction hi
    · cases h
  · cases h
    exact Bool.eq_false_iff.2 ‹_›

theorem not_running_of_error {w w' : Machine × σ} {e : Error} (h : step host w = .error e w') :
    w'.1.running = false := by
  rw [step] at h
  split at h
  · split at h <;> cases h
    rfl
  · cases h

/-- Where no jump is taken, the bytes that are left bound the steps: two for each, and one
step more. -/
theorem ends_of_off (host : Host σ) {mode : Mode} {m : Machine} (hm : m.Inside mode)
    (hoff : m.mode = .scan ∨ m.gotoLock = true) (s : σ) :
    ∃ n r, 2 * n ≤ m.code.size - m.position + 2 ∧ ended (steps host n (m, s)) = some r ∧
      Over r := by
  cases hstep : step host (m, s) with
  | error e w =>
    refine ⟨1, .error e w, by omega, ?_, not_running_of_error hstep⟩
    rw [steps_succ, hstep]
    rfl
  | ok more w =>
    cases more with
    | false =>
      refine ⟨1, .ok () w, by omega, ?_, not_running_of_step hstep⟩
      rw [steps_succ, hstep]
      rfl
    | true =>
      have hrun : m.running = true := by
        by_contra hidle
        rw [step_idle host (Bool.eq_false_iff.2 hidle)] at hstep
        cases hstep
      have hdone := done_of_step (hm.ready host s) hrun hstep
      have htwo := hdone.onward hoff
      have hinside := hdone.inside
      dsimp only at htwo hinside
      have hnext : w.1.Inside mode := by
        have hkept := hm.step host s
        rwa [hstep] at hkept
      rw [← hdone.mode, ← hdone.gotoLock] at hoff
      have hlt : w.1.code.size - w.1.position < m.code.size - m.position := by
        rw [hdone.code]
        dsimp only
        omega
      obtain ⟨n, r, hn, hended, hover⟩ := ends_of_off host hnext hoff w.2
      rw [hdone.code] at hn
      dsimp only at hn
      refine ⟨n + 1, r, by omega, ?_, hover⟩
      rw [steps_succ, hstep]
      exact hended
termination_by m.code.size - m.position

end Exec

-- ============================================================================
-- Decoding
-- ============================================================================

namespace Machine

/-- The machine at the beginning of a scan. -/
def scanning (m : Machine) (c : Code) (p : Nat) : Machine :=
  { m with code := c, position := p, mode := .scan, running := true }

/-- The end of a scan: the machine is as between runs again. -/
def scanned :
    EStateM.Result Error (Machine × σ) Unit → EStateM.Result Error (Machine × σ) Unit
  | .ok _ (m, s) => .ok () ({ m with mode := .run, running := false }, s)
  | .error e (m, s) => .error e ({ m with mode := .run, running := false }, s)

/-- A scan is its steps to the end, when these are not more than its budget. -/
theorem scan_of_ended {host : Host σ} {c : Code} {p n : Nat} (hp : p < c.size) {m : Machine}
    {s : σ} {r : EStateM.Result Error (Machine × σ) Unit}
    (h : Exec.ended (Exec.steps host n (m.scanning c p, s)) = some r) (hn : n ≤ c.size + 1) :
    scan host c p (m, s) = scanned r := by
  have hlast : ∀ v, Exec.steps host n (m.scanning c p, s) ≠ .ok false v := by
    intro v hv
    rw [hv] at h
    cases h
  have hall := Exec.steps_of_end rfl hlast hn
  rw [scanning] at h hall
  rw [scan_inside hp, hall]
  revert h
  cases Exec.steps host n _ with
  | error e w =>
    rintro ⟨⟩
    rfl
  | ok stopped w =>
    cases stopped with
    | true =>
      rintro ⟨⟩
      rfl
    | false => rintro ⟨⟩

/-- Decoding ends, on any bytes.  Without jumps every step that goes well goes on by two
bytes, so that a scan, and a run that was started with jumps off, stop or fail after half as
many steps as there are bytes, and one.  The disassembly has not more rounds than that, and
the readers of an expression and of the arguments of a call, in a disassembly and in every
mode of the machine, have not more rounds than there are bytes left, and one. -/
theorem decoding_ends (host : Host σ) (c : Code) (p : Nat) :
    (∀ m s more w, m.running = true → m.mode = .scan ∨ m.gotoLock = true →
      Exec.step host (m, s) = .ok more w → m.position + 2 ≤ w.1.position) ∧
    (∀ m s, p < c.size → ∃ n r, n ≤ c.size / 2 + 1 ∧
      Exec.ended (Exec.steps host n (m.scanning c p, s)) = some r ∧ Exec.Over r ∧
      scan host c p (m, s) = scanned r) ∧
    (∀ m₀ m s, start c p true m₀ = .ok () m → ∃ n r, n ≤ c.size / 2 + 1 ∧
      Exec.ended (Exec.steps host n (m, s)) = some r ∧ Exec.Over r) ∧
    (∀ rounds, c.size / 2 < rounds →
      c.instructionsWithin rounds [] 0 = Code.limited c.instructions) ∧
    ∀ rounds, c.size - p < rounds →
      (c.expressionWithin rounds p = Code.limited (c.expression p) ∧
        c.argsWithin rounds p = Code.limited (c.args p)) ∧
      ∀ mode,
        Eval.expressionWithin host mode c rounds p = (Eval.expression host mode c p).limited ∧
        Eval.callWithin host mode c rounds p = (Eval.call host mode c p).limited := by
  refine ⟨fun m s more w => Exec.add_two_le_of_step, fun m s hp => ?_, fun m₀ m s hstart => ?_,
    fun rounds h => Code.instructionsWithin_eq [] h,
    fun rounds h => ⟨⟨?_, ?_⟩, fun mode => ⟨?_, ?_⟩⟩⟩
  · have hinside : (m.scanning c p).Inside .scan := ⟨Nat.le_of_lt hp, rfl⟩
    obtain ⟨n, r, hn, hended, hover⟩ := Exec.ends_of_off host hinside (.inl rfl) s
    have hsize : 2 * n ≤ c.size - p + 2 := hn
    exact ⟨n, r, by omega, hended, hover, scan_of_ended hp hended (by omega)⟩
  · rcases Nat.lt_or_ge p c.size with hp | hp
    · obtain ⟨hcode, hpos, hmode, hlock⟩ :
          m.code = c ∧ m.position = p ∧ m.mode = .run ∧ m.gotoLock = true := by
        rw [start_eq_ok hp] at hstart
        cases hstart
        exact ⟨rfl, rfl, rfl, rfl⟩
      have hinside : m.Inside .run := ⟨by rw [hcode, hpos]; exact Nat.le_of_lt hp, hmode⟩
      obtain ⟨n, r, hn, hended, hover⟩ := Exec.ends_of_off host hinside (.inr hlock) s
      rw [hcode] at hn
      exact ⟨n, r, by omega, hended, hover⟩
    · rw [start_refused hp] at hstart
      cases hstart
  · exact c.expressionWithin_eq h
  · exact c.argsWithin_eq h
  · exact Eval.expressionWithin_eq host mode c h
  · exact Eval.callWithin_eq host mode c (Nat.le_of_lt h)

/-- A stream that goes round for ever ends in a scan and where jumps are off. -/
theorem spinning_ends :
    (∃ w, Exec.step Host.mute (({} : Machine).scanning spinning 0, ()) = .ok true w ∧
      2 ≤ w.1.position) ∧
    (∃ r, Exec.Over r ∧ scan Host.mute spinning 0 ({}, ()) = scanned r) ∧
    (∃ n r, n ≤ 7 ∧ Exec.ended (Exec.steps Host.mute n
        ({ code := spinning, gotoLock := true, running := true }, ())) = some r ∧ Exec.Over r) ∧
    spinning.instructionsWithin 7 [] 0 = Code.limited spinning.instructions ∧
    spinning.expressionWithin 14 0 = Code.limited (spinning.expression 0) := by
  obtain ⟨hstep, hscan, hlocked, hlisted, hread⟩ := decoding_ends Host.mute spinning 0
  have hfirst : Exec.step Host.mute (({} : Machine).scanning spinning 0, ()) =
      .ok true ({ ({} : Machine).scanning spinning 0 with position := 11 }, ()) := rfl
  obtain ⟨_, r, _, _, hover, hr⟩ := hscan {} () (by decide)
  exact ⟨⟨_, hfirst, hstep _ _ _ _ rfl (.inl rfl) hfirst⟩, ⟨r, hover, hr⟩,
    hlocked {} _ () rfl, hlisted 7 (by decide), (hread 14 (by decide)).1.1⟩

end Machine

end ScriptMachine
