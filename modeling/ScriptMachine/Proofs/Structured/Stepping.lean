/-
  ScriptMachine.Proofs.Structured.Stepping

  What the machine does at each instruction of a structured script: the value of an
  expression from the stream is its value by the reference, and every instruction
  takes one step that changes position, variables and stack as it should.
-/

import Mathlib.Algebra.Ring.Nat
import ScriptMachine.Proofs.Running
import ScriptMachine.Proofs.Structured.Meaning
import ScriptMachine.Proofs.Structured.Placement

namespace ScriptMachine.Structured

variable {σ : Type} {host : Host σ}

/-! ## Expressions -/

theorem Term.eval_operand (t : Term) (s : Store) (h : σ) :
    t.operand.eval host .run (s, h) = .ok (t.value s) (s, h) := by
  cases t <;> simp only [operand, Operand.eval] <;> rfl

theorem Expr.chain_tree (e : Expr) (s : Store) (h : σ) :
    e.tree.chain host .run (s, h) = .ok (e.operands s, e.operators) (s, h) := by
  induction e with
  | last t =>
    simp only [tree, Expression.chain, bind, EStateM.bind, t.eval_operand]
    rfl
  | more t sign rest ih =>
    simp only [tree, Expression.chain, bind, EStateM.bind, t.eval_operand, ih]
    rfl

/-- The value of an expression, and nothing else changes. -/
theorem Expr.eval_tree (e : Expr) (s : Store) (h : σ) :
    e.tree.eval host .run (s, h) =
      match e.value s with
      | .ok v => .ok v (s, h)
      | .error err => .error err (s, h) := by
  simp only [Expression.eval, bind, EStateM.bind, e.chain_tree]
  show Work.ofExcept (e.value s) (s, h) = _
  cases e.value s <;> rfl

/-! ## A machine that runs -/

/-- The machine runs, its jumps are on, and 63 bits address its stream. -/
structure Ready (m : Machine) : Prop where
  mode : m.mode = .run
  unlocked : m.gotoLock = false
  running : m.running = true
  short : m.code.size < 2 ^ 63

/-- The machine `m` at a position, with these variables and this stack. -/
def place (m : Machine) (h : σ) (p : Nat) (s : Store) (st : Stack Value) : Machine × σ :=
  ({ m with position := p, store := s, stack := st }, h)

section
variable {m : Machine} {h : σ} {p q n : Nat} {s : Store} {st : Stack Value}

/-- The work of an expression, followed by the rest of its instruction. -/
theorem work_tree (hm : Ready m) {e : Expr} {v : Value} (he : e.value s = .ok v) {α : Type}
    (f : Value → Exec σ α) :
    (Exec.work q (e.tree.eval host) >>= f) (place m h p s st) = f v (place m h q s st) := by
  simp only [bind, EStateM.bind, Exec.work, place, hm.mode, e.eval_tree, he]

theorem work_tree_error (hm : Ready m) {e : Expr} {err : Error} (he : e.value s = .error err)
    {α : Type} (f : Value → Exec σ α) :
    (Exec.work q (e.tree.eval host) >>= f) (place m h p s st) =
      .error err (place m h p s st) := by
  simp only [bind, EStateM.bind, Exec.work, place, hm.mode, e.eval_tree, he]

/-- A jump, followed by the rest of its instruction. -/
theorem jump_place (hm : Ready m) (hn : n < m.code.size) :
    (do
      Exec.jump (Int64.ofNat n)
      return true : Exec σ Bool) (place m h p s st) = .ok true (place m h n s st) := by
  have hint : (Int64.ofNat n).toInt = n := Int64.toInt_ofNat_of_lt (Nat.lt_trans hn hm.short)
  have hneg : ¬ (Int64.ofNat n).toInt < 0 := by omega
  have hnat : (Int64.ofNat n).toInt.toNat = n := by omega
  have hjump : Exec.jump (Int64.ofNat n) (place m h p s st) = .ok () (place m h n s st) := by
    simp only [Exec.jump, Exec.change, place, hm.mode, hm.unlocked, hneg, hnat, Code.seek, hn]
    rfl
  simp only [bind, EStateM.bind, hjump]
  rfl

/-- A change of the variables. -/
theorem effect_place (hm : Ready m) (f : Machine → Except Error Machine) :
    Exec.effect f (place m h p s st) =
      match f (place m h p s st).1 with
      | .ok m' => .ok () (m', h)
      | .error e => .error e (place m h p s st) := by
  have hrun : (place m h p s st).1.mode ≠ .scan := by
    simp [place, hm.mode]
  unfold Exec.effect Exec.change
  simp only [hrun, if_false]
  rfl

/-- A step on the stack. -/
theorem onStack_place (hm : Ready m) {α : Type} {x : EStateM Error (Stack Value) α} {a : α}
    {st' : Stack Value} (hx : x st = .ok a st') (skipped : α) :
    Exec.onStack x skipped (place m h p s st) = .ok a (place m h p s st') := by
  have hrun : (place m h p s st).1.mode ≠ .scan := by
    simp [place, hm.mode]
  unfold Exec.onStack
  simp only [hrun, if_false]
  rw [show (place m h p s st).1.stack = st from rfl, hx]
  rfl

/-- Storing a variable of the machine is storing it in its variables. -/
theorem setVariable_place (name : String) (v : Value) :
    (place m h p s st).1.setVariable name v =
      (fun s' => (place m h p s' st).1) <$> s.store name v := by
  simp only [Machine.setVariable, place, bind, Except.bind]
  cases s.store name v <;> rfl

/-! ## Instructions -/

/-- One step to a state, or an error. -/
def Steps (host : Host σ) (w : Machine × σ) : Except Error (Machine × σ) → Prop
  | .ok w' => Exec.steps host 1 w = .ok false w'
  | .error e => Exec.Fails host w e.kind

section
variable {i : Instruction} (hm : Ready m) (hi : m.code.Has p i q)
include hm hi

theorem step_of_has {w : Machine × σ} (hp : i.perform host q (place m h p s st) = .ok true w) :
    Exec.steps host 1 (place m h p s st) = .ok false w := by
  refine Exec.steps_of_perform (m := (place m h p s st).1) hi.legible hi.holds hm.running true ?_
  rw [← hp, hi.next]
  rfl

theorem fails_of_has {w : Machine × σ} {e : Error}
    (hp : i.perform host q (place m h p s st) = .error e w) :
    Exec.Fails host (place m h p s st) e.kind := by
  refine Exec.fails_of_perform (m := (place m h p s st).1) (w := w) hi.legible hi.holds
    hm.running ?_
  rw [← hp, hi.next]
  rfl

/-- An instruction that ends with a change of the variables. -/
theorem steps_of_effect {f : Machine → Except Error Machine} {r : Except Error Store}
    {st' : Stack Value}
    (hp : i.perform host q (place m h p s st) = (do
      Exec.effect f
      return true : Exec σ Bool) (place m h q s st'))
    (hf : f (place m h q s st').1 = (fun s' => (place m h q s' st').1) <$> r) :
    Steps host (place m h p s st) ((place m h q · st') <$> r) := by
  have heffect : Exec.effect f (place m h q s st') = _ := effect_place hm f
  rw [hf] at heffect
  cases r with
  | ok s' =>
    refine step_of_has hm hi (hp.trans ?_)
    simp only [bind, EStateM.bind, heffect]
    rfl
  | error e =>
    refine fails_of_has (w := place m h q s st') hm hi (hp.trans ?_)
    simp only [bind, EStateM.bind, heffect]
    rfl

end

section
variable (hm : Ready m)
include hm

/-- An assigning instruction stores, or fails as its expression or its store
does. -/
theorem steps_assign {how : Assignment} {name : String} {e : Expr}
    (hi : m.code.Has p (.assign how name e.tree) q) :
    Steps host (place m h p s st) ((place m h q · st) <$>
      (do s.store name (← how.combine (s.fetch name) (← e.value s)))) := by
  cases he : e.value s with
  | error err => exact fails_of_has hm hi (work_tree_error hm he _)
  | ok v =>
    refine steps_of_effect hm hi (work_tree hm he _) ?_
    show (do (place m h q s st).1.setVariable name (← how.combine (s.fetch name) v)) =
      (fun s' => (place m h q s' st).1) <$> (do s.store name (← how.combine (s.fetch name) v))
    cases how.combine (s.fetch name) v with
    | error err => rfl
    | ok u => exact setVariable_place name u

/-- An assignment changes the variables as the reference says. -/
theorem steps_change {x : Name} {change : Change} (hi : m.code.Has p (change.instruction x) q) :
    Steps host (place m h p s st) ((place m h q · st) <$> change.apply Store.store s x) := by
  cases change with
  | store how e => exact steps_assign hm hi
  | increment => exact steps_of_effect hm hi rfl (setVariable_place _ _)
  | decrement => exact steps_of_effect hm hi rfl (setVariable_place _ _)

/-- A jump. -/
theorem steps_jump {dest : Nat} (hi : Jumps m.code p dest q) :
    Steps host (place m h p s st) (.ok (place m h dest s st)) :=
  step_of_has hm hi.1 (@jump_place σ m h q dest s st hm hi.2)

/-- A condition goes on at one of two places. -/
theorem steps_test {test : Expr} (hi : Tests m.code p test q n) :
    Steps host (place m h p s st)
      ((fun b => place m h (if b then q else n) s st) <$> test.test s) := by
  unfold Expr.test
  cases he : test.value s with
  | error err => exact fails_of_has hm hi.1 (work_tree_error hm he _)
  | ok v =>
    refine step_of_has hm hi.1 ((work_tree hm he _).trans ?_)
    cases ht : v.isTruthy with
    | false => exact jump_place hm hi.2
    | true => rfl

/-- A case goes on at one of two places. -/
theorem steps_case {value : Expr} (hi : Matches m.code p value q n) :
    Steps host (place m h p s st)
      ((fun b => place m h (if b then q else n) s st) <$> value.isCase s) := by
  unfold Expr.isCase
  cases he : value.value s with
  | error err => exact fails_of_has hm hi.1 (work_tree_error hm he _)
  | ok v =>
    show Steps host _ (_ <$> Value.same v (s.fetch caseName))
    have hrun : (place m h q s st).1.mode = .run := hm.mode
    have hstore : (place m h q s st).1.store = s := rfl
    cases hs : Value.same v (s.fetch caseName) with
    | error err =>
      refine fails_of_has (w := place m h q s st) hm hi.1 ((work_tree hm he _).trans ?_)
      simp only [Exec.get_bind, hrun, if_true, hstore, hs]
      rfl
    | ok b =>
      cases b with
      | true =>
        refine step_of_has (w := place m h q s st) hm hi.1 ((work_tree hm he _).trans ?_)
        simp only [Exec.get_bind, hrun, if_true, hstore, hs]
        rfl
      | false =>
        refine step_of_has (w := place m h n s st) hm hi.1 ((work_tree hm he _).trans ?_)
        simp only [Exec.get_bind, hrun, if_true, hstore, hs]
        exact jump_place hm hi.2

/-- The value under test is saved. -/
theorem steps_push (hi : m.code.Has p (.push caseName) q) (hst : st.size < Stack.limit) :
    Steps host (place m h p s st) (.ok (place m h q s
      { st with items := st.items.push (s.fetch caseName) })) := by
  have hpush := @onStack_place σ m h q s st hm _ (Stack.push (s.fetch caseName)) () _
    (Stack.push_eq_ok_iff.2 ⟨hst, rfl⟩) ()
  refine step_of_has hm hi ?_
  show (do
    Exec.onStack (Stack.push (s.fetch caseName)) ()
    return true : Exec σ Bool) (place m h q s st) = _
  simp only [bind, EStateM.bind, hpush]
  rfl

/-- The value under test is restored. -/
theorem steps_pop {v : Value} (hi : m.code.Has p (.pop caseName) q) :
    Steps host (place m h p s { st with items := st.items.push v })
      ((place m h q · st) <$> s.store caseName v) := by
  have htop : Stack.pop { st with items := st.items.push v } = .ok v st :=
    Stack.pop_eq_ok_iff.2 ⟨Stack.top?_push st v, (Stack.pop_push st v).symm⟩
  have hpop := @onStack_place σ m h q s _ hm _ Stack.pop v _ htop default
  refine steps_of_effect (f := fun m => m.setVariable caseName v) hm hi ?_
    (setVariable_place caseName v)
  show (do
    let v ← Exec.onStack Stack.pop default
    Exec.effect fun m => m.setVariable caseName v
    return true : Exec σ Bool) (place m h q s { st with items := st.items.push v }) = _
  simp only [bind, EStateM.bind, hpop]

/-- The end of a script. -/
theorem halts_stop (hi : m.code.Has p .stop q) : Exec.Halts host (place m h p s st) s := by
  refine Exec.halts_of_perform (m := (place m h p s st).1)
    (w := ({ m with position := q, store := s, stack := st, running := false }, h))
    hi.legible hi.holds hm.running ?_
  rw [hi.next]
  rfl

end

end

end ScriptMachine.Structured
