/-
  ScriptMachine.Proofs.Levels

  How deep the stack is at an address.  Every `push` raises the stack by one value and
  every `pop` lowers it, so a list of instructions gives each address a depth, as if it
  were executed from its start to the address without a jump (`Instruction.depthAt`).
  Code is level when no jump leaves its depth or crosses code that lies lower.  In a run
  of level code the stack is as high as the depth of the position says
  (`Exec.goes_atDepth`); and a stretch of it that lies deeper than its two ends is left
  only at its end, with the stack and the variable that were saved at its start
  (`Exec.restores`).
-/

import Mathlib.Algebra.Ring.Int.Defs
import ScriptMachine.Proofs.Safety

namespace ScriptMachine

variable {σ α β : Type}

-- ============================================================================
-- Depths
-- ============================================================================

namespace Instruction

/-- By how much an instruction raises the stack. -/
def rise : Instruction → Int
  | push _ => 1
  | pop _ => -1
  | _ => 0

@[simp] theorem rise_push (x : String) : (push x).rise = 1 := rfl

@[simp] theorem rise_pop (x : String) : (pop x).rise = -1 := rfl

/-- By how much instructions raise the stack together. -/
def rises (is : List Instruction) : Int :=
  (is.map rise).sum

@[simp] theorem rises_nil : rises [] = 0 := rfl

@[simp] theorem rises_cons (i : Instruction) (is : List Instruction) :
    rises (i :: is) = i.rise + rises is := rfl

@[simp] theorem rises_append (is js : List Instruction) :
    rises (is ++ js) = rises is + rises js := by
  simp [rises]

/-- How much the instructions in front of an address raise the stack. -/
def depthAt : List Instruction → Nat → Int
  | [], _ => 0
  | i :: is, a => if a = 0 then 0 else i.rise + depthAt is (a - i.bytes.length)

@[simp] theorem depthAt_zero (is : List Instruction) : depthAt is 0 = 0 := by
  cases is <;> rfl

/-- The depth behind the first instructions of a list. -/
theorem depthAt_append (is js : List Instruction) :
    depthAt (is ++ js) (stream is).length = rises is := by
  induction is with
  | nil => exact depthAt_zero js
  | cons i is ih =>
    have htwo := i.two_le_length_bytes
    rw [stream_cons, List.length_append, List.cons_append, depthAt, if_neg (by omega),
      Nat.add_sub_cancel_left, ih, rises_cons]

section
variable {is : List Instruction} {address a b : Nat} {i j : Instruction}

/-- An instruction of a list stands behind those in front of it. -/
theorem split_of_mem_located (h : (a, i) ∈ located address is) :
    ∃ before behind, is = before ++ i :: behind ∧ a = address + (stream before).length := by
  induction is generalizing address with
  | nil => cases h
  | cons k ks ih =>
    rcases List.mem_cons.1 h with heq | htail
    · cases heq
      exact ⟨[], ks, rfl, rfl⟩
    · obtain ⟨before, behind, rfl, rfl⟩ := ih htail
      refine ⟨k :: before, behind, rfl, ?_⟩
      rw [stream_cons, List.length_append, Nat.add_assoc]

theorem le_of_mem_located (h : (a, i) ∈ located address is) : address ≤ a := by
  obtain ⟨before, _, _, rfl⟩ := split_of_mem_located h
  omega

/-- The depth behind an instruction. -/
theorem depthAt_next (h : (a, i) ∈ located 0 is) :
    depthAt is (a + i.bytes.length) = depthAt is a + i.rise := by
  obtain ⟨before, behind, rfl, rfl⟩ := split_of_mem_located h
  have hnext := depthAt_append (before ++ [i]) behind
  rw [stream_append, List.length_append, List.append_assoc, List.singleton_append, rises_append,
    stream_cons, stream_nil, List.append_nil, rises_cons, rises_nil, Int.add_zero] at hnext
  rw [Nat.zero_add, hnext, depthAt_append]

/-- Two instructions of a list do not overlap. -/
theorem located_apart (hi : (a, i) ∈ located address is) (hj : (b, j) ∈ located address is)
    (hlt : a < b) : a + i.bytes.length ≤ b := by
  induction is generalizing address with
  | nil => cases hi
  | cons k ks ih =>
    rcases List.mem_cons.1 hi with heq | hi
    · cases heq
      rcases List.mem_cons.1 hj with heq | hj
      · cases heq
        omega
      · exact le_of_mem_located hj
    · rcases List.mem_cons.1 hj with heq | hj
      · cases heq
        have hle := le_of_mem_located hi
        omega
      · exact ih hi hj

end

/-- From `p` to `b` one stays on the depth of `p`, and no instruction on the way lies
lower. -/
structure Level (is : List Instruction) (p b : Nat) : Prop where
  depth : depthAt is b = depthAt is p
  above : ∀ a i, (a, i) ∈ located 0 is → min p b ≤ a → a ≤ max p b → depthAt is p ≤ depthAt is a

/-- Every jump stays on its depth, and nothing but the value under test is saved and
restored. -/
structure Leveled (is : List Instruction) : Prop where
  jumps : ∀ p i, (p, i) ∈ located 0 is → ∀ dest (b : Nat), i.dest? = some dest →
    dest.toInt = b → Level is p b
  saves : ∀ i ∈ is, ∀ x, i = .push x ∨ i = .pop x → x = caseName

end Instruction

-- ============================================================================
-- Instructions on the stack
-- ============================================================================

/-- The stack of a machine with the value of a variable on top. -/
def Machine.savedStack (m : Machine) (x : String) : Stack Value :=
  { m.stack with items := m.stack.items.push (m.store.fetch x) }

theorem Machine.size_savedStack (m : Machine) (x : String) :
    (m.savedStack x).size = m.stack.size + 1 :=
  Array.size_push _

theorem Machine.savedStack_inj
    {m m' : Machine} {x : String} (h : m.savedStack x = m'.savedStack x) :
    m.stack = m'.stack ∧ m.store.fetch x = m'.store.fetch x := by
  injection h with hoverflow hunderflow hitems
  rw [Array.push_eq_push] at hitems
  refine ⟨?_, hitems.1⟩
  cases hm : m.stack
  cases hm' : m'.stack
  rw [hm, hm'] at hoverflow hunderflow hitems
  rw [Stack.mk.injEq]
  exact ⟨hoverflow, hunderflow, hitems.2⟩

/-- What an instruction does to the stack: `pop` undoes what `push` does. -/
def Instruction.Shifts : Instruction → Machine → Machine → Prop
  | push x, m, m' => m'.stack = m.savedStack x
  | pop x, m, m' => m.stack = m'.savedStack x
  | _, m, m' => m'.stack = m.stack

namespace Exec

/-- When the step succeeds from the machine `m`, it leaves the stack and the mode
alone. -/
def KeepsStack (x : Exec σ α) (m : Machine) : Prop :=
  ∀ s a w, x (m, s) = .ok a w → w.1.stack = m.stack ∧ w.1.mode = m.mode

section
variable {m : Machine}

theorem KeepsStack.bind {x : Exec σ α} {f : α → Exec σ β} (h : KeepsStack x m)
    (hf : ∀ a m', KeepsStack (f a) m') : KeepsStack (x >>= f) m := by
  intro s b w hw
  simp only [Bind.bind, EStateM.bind] at hw
  cases hx : x (m, s) with
  | error e v =>
    rw [hx] at hw
    cases hw
  | ok a v =>
    rw [hx] at hw
    obtain ⟨hstack, hmode⟩ := h s a v hx
    obtain ⟨hstack', hmode'⟩ := hf a v.1 v.2 b w hw
    exact ⟨hstack'.trans hstack, hmode'.trans hmode⟩

theorem keepsStack_pure (a : α) : KeepsStack (pure a : Exec σ α) m := by
  rintro s _ _ ⟨⟩
  exact ⟨rfl, rfl⟩

theorem keepsStack_get : KeepsStack (get : Exec σ (Machine × σ)) m := by
  rintro s _ _ ⟨⟩
  exact ⟨rfl, rfl⟩

theorem keepsStack_change {f : Machine → Except Error Machine}
    (hf : ∀ m', f m = .ok m' → m'.stack = m.stack ∧ m'.mode = m.mode) :
    KeepsStack (change f : Exec σ Unit) m := by
  intro s a w hw
  unfold change at hw
  dsimp only at hw
  split at hw
  · cases hw
    exact hf _ ‹_›
  · cases hw

theorem keepsStack_work (next : Nat) (y : Mode → Work σ α) : KeepsStack (work next y) m := by
  intro s a w hw
  unfold work at hw
  dsimp only at hw
  split at hw
  · cases hw
    exact ⟨rfl, rfl⟩
  · cases hw

theorem keepsStack_advance (next : Nat) : KeepsStack (advance next : Exec σ Unit) m :=
  keepsStack_change fun m' h => by
    cases h
    exact ⟨rfl, rfl⟩

theorem keepsStack_jump (dest : Int64) : KeepsStack (jump dest : Exec σ Unit) m := by
  refine keepsStack_change fun m' h => ?_
  split at h
  · cases h
    exact ⟨rfl, rfl⟩
  · split at h
    · cases h
    · obtain ⟨p, _, h⟩ := except_bind_eq_ok h
      cases h
      exact ⟨rfl, rfl⟩

/-- A variable that is stored has its value, and nothing else changes. -/
theorem setVariable_eq_ok {x : String} {v : Value} {m m' : Machine}
    (h : m.setVariable x v = .ok m') :
    m'.stack = m.stack ∧ m'.mode = m.mode ∧ m'.store.fetch x = v := by
  obtain ⟨store, hstore, h⟩ := except_bind_eq_ok h
  cases h
  refine ⟨rfl, rfl, ?_⟩
  show (store.get? x).getD default = v
  rw [Store.get?_store hstore, if_pos rfl]
  rfl

theorem keepsStack_setVariable (x : String) (f : Machine → Except Error Value) :
    KeepsStack (effect fun m => do m.setVariable x (← f m) : Exec σ Unit) m := by
  refine keepsStack_change fun m' h => ?_
  split at h
  · cases h
    exact ⟨rfl, rfl⟩
  · obtain ⟨v, _, h⟩ := except_bind_eq_ok h
    obtain ⟨hstack, hmode, _⟩ := setVariable_eq_ok h
    exact ⟨hstack, hmode⟩

/-- A step on the stack of a machine that does not scan. -/
theorem onStack_eq_ok {x : EStateM Error (Stack Value) α} {skipped a : α} {s : σ}
    {w : Machine × σ} (hm : m.mode = .run) (h : onStack x skipped (m, s) = .ok a w) :
    ∃ st, x m.stack = .ok a st ∧ w = ({ m with stack := st }, s) := by
  unfold onStack at h
  dsimp only at h
  rw [if_neg (by rw [hm]; decide)] at h
  split at h
  · rename_i hx
    cases h
    exact ⟨_, hx, rfl⟩
  · cases h

/-- A variable is stored by a machine that does not scan. -/
theorem effect_eq_ok {f : Machine → Except Error Machine} {s : σ} {u : Unit} {w : Machine × σ}
    (hm : m.mode = .run) (h : effect f (m, s) = .ok u w) : ∃ m', f m = .ok m' ∧ w = (m', s) := by
  unfold effect change at h
  dsimp only at h
  rw [if_neg (by rw [hm]; decide)] at h
  split at h
  · rename_i hf
    cases h
    exact ⟨_, hf, rfl⟩
  · cases h

end

end Exec

open Exec in
theorem Instruction.shifts_push {host : Host σ} {x : String} {next : Nat} {m : Machine} {s : σ}
    {more : Bool} {w : Machine × σ} (hm : m.mode = .run)
    (h : (push x).perform host next (m, s) = .ok more w) : (push x).Shifts m w.1 := by
  -- the machine has advanced, which changes neither variables nor stack
  have hpush : (onStack (Stack.push (m.store.fetch x)) () >>= fun _ => pure true)
      ({ m with position := next }, s) = .ok more w := h
  obtain ⟨_, v, hw, hpure⟩ := estate_bind_eq_ok hpush
  obtain ⟨st, hst, rfl⟩ := onStack_eq_ok (m := { m with position := next }) hm hw
  obtain ⟨_, rfl⟩ := Stack.push_eq_ok_iff.1 hst
  cases hpure
  rfl

open Exec in
theorem Instruction.shifts_pop {host : Host σ} {x : String} {next : Nat} {m : Machine} {s : σ}
    {more : Bool} {w : Machine × σ} (hm : m.mode = .run)
    (h : (pop x).perform host next (m, s) = .ok more w) : (pop x).Shifts m w.1 := by
  have hpop : (onStack Stack.pop default >>= fun v => do
      effect fun m => m.setVariable x v
      return true) ({ m with position := next }, s) = .ok more w := h
  obtain ⟨v, w₁, hw, hrest⟩ := estate_bind_eq_ok hpop
  obtain ⟨st, hst, rfl⟩ := onStack_eq_ok (m := { m with position := next }) hm hw
  obtain ⟨htop, rfl⟩ := Stack.pop_eq_ok_iff.1 hst
  obtain ⟨_, w₂, hset, hpure⟩ := estate_bind_eq_ok hrest
  obtain ⟨m₂, hm₂, rfl⟩ := effect_eq_ok (by exact hm) hset
  cases hpure
  obtain ⟨hstack, _, hfetch⟩ := setVariable_eq_ok hm₂
  -- what was taken from the stack lies on the stack that is left
  obtain ⟨rest, hrest⟩ := Array.back?_eq_some_iff.1 htop
  have hitems : m.stack.items = m.stack.items.pop.push v := by
    rw [hrest, Array.pop_push]
  show m.stack = Machine.savedStack m₂ x
  rw [Machine.savedStack, hstack, hfetch, ← hitems]

open Exec in
/-- An instruction that is carried out does to the stack what it should. -/
theorem Instruction.shifts_of_perform {host : Host σ} {i : Instruction} {next : Nat}
    {m m' : Machine} {s s' : σ} {more : Bool} (hm : m.mode = .run)
    (h : i.perform host next (m, s) = .ok more (m', s')) : i.Shifts m m' := by
  cases i with
  | push x => exact shifts_push hm h
  | pop x => exact shifts_pop hm h
  | stop =>
    exact ((keepsStack_advance next).bind fun _ _ => (keepsStack_change fun m' h => by
      cases h
      exact ⟨rfl, rfl⟩).bind fun _ _ => keepsStack_pure _) s more _ h |>.1
  | assign how x e =>
    exact ((keepsStack_work next _).bind fun _ _ => (keepsStack_setVariable x _).bind
      fun _ _ => keepsStack_pure _) s more _ h |>.1
  | increment x | decrement x =>
    exact ((keepsStack_advance next).bind fun _ _ => (keepsStack_setVariable x fun m => .ok _).bind
      fun _ _ => keepsStack_pure _) s more _ h |>.1
  | unlessGoto e dest =>
    refine ((keepsStack_work next _).bind fun v _ => ?_) s more _ h |>.1
    dsimp only
    split
    · exact (keepsStack_jump dest).bind fun _ _ => keepsStack_pure _
    · exact keepsStack_pure _
  | unlessCaseGoto e dest =>
    refine ((keepsStack_work next _).bind fun v _ =>
      keepsStack_get.bind fun w _ => ?_) s more _ h |>.1
    dsimp only
    split
    · split
      · exact keepsStack_pure _
      · exact (keepsStack_jump dest).bind fun _ _ => keepsStack_pure _
      · rintro s a w ⟨⟩
    · exact keepsStack_pure _
  | goto dest =>
    exact ((keepsStack_advance next).bind fun _ _ => (keepsStack_jump dest).bind
      fun _ _ => keepsStack_pure _) s more _ h |>.1
  | func code args =>
    exact ((keepsStack_work next _).bind fun _ _ => keepsStack_pure _) s more _ h |>.1

-- ============================================================================
-- Runs
-- ============================================================================

namespace Exec

variable {host : Host σ} {w w' : Machine × σ}

/-- What every step keeps, a run keeps. -/
theorem Goes.keeps {P : Machine × σ → Prop}
    (hstep : ∀ v v', P v → steps host 1 v = .ok false v' → P v') (h : Goes host w w')
    (hw : P w) : P w' := by
  obtain ⟨n, hn⟩ := h
  induction n generalizing w with
  | zero =>
    cases hn
    exact hw
  | succ n ih =>
    have hfirst := steps_of_le hn (Nat.le_add_left 1 n)
    obtain ⟨v, hv⟩ := hfirst
    rw [Nat.add_comm, steps_add hv] at hn
    exact ih (hstep w v hw hv) hn

end Exec

/-- What one step of a run does: it carries out an instruction other than `stop`, and
goes on behind it or where it jumps to. -/
structure Instruction.Follows (is : List Instruction)
    (i : Instruction) (m m' : Machine) : Prop where
  here : (m.position, i) ∈ located 0 is
  goesOn : i ≠ .stop
  shifts : i.Shifts m m'
  place : m'.position = m.position + i.bytes.length ∨
    ∃ dest, i.dest? = some dest ∧ dest.toInt = m'.position

/-- The machine runs closed code, and its stack is as high as the depth of its position
says. -/
structure Machine.AtDepth (c : Code) (is : List Instruction) (m : Machine) : Prop where
  track : m.OnTrack c (Instruction.located 0 is) .run
  running : m.running = true
  height : (m.stack.size : Int) = Instruction.depthAt is m.position

namespace Instruction

variable {is : List Instruction} {i : Instruction} {m m' : Machine}

/-- An instruction saves a variable, restores one, or leaves the stack alone. -/
theorem Shifts.cases (h : i.Shifts m m') :
    (∃ x, i = .push x ∧ m'.stack = m.savedStack x) ∨
      (∃ x, i = .pop x ∧ m.stack = m'.savedStack x) ∨
      i.rise = 0 ∧ m'.stack = m.stack := by
  cases i with
  | push x => exact .inl ⟨x, rfl, h⟩
  | pop x => exact .inr (.inl ⟨x, rfl, h⟩)
  | _ => exact .inr (.inr ⟨rfl, h⟩)

theorem Shifts.height (h : i.Shifts m m') : (m'.stack.size : Int) = m.stack.size + i.rise := by
  rcases h.cases with ⟨x, rfl, hstack⟩ | ⟨x, rfl, hstack⟩ | ⟨hrise, hstack⟩
  · rw [hstack, m.size_savedStack, rise_push]
    omega
  · rw [hstack, m'.size_savedStack, rise_pop]
    omega
  · rw [hstack, hrise, Int.add_zero]

/-- An instruction that may jump leaves the stack alone. -/
theorem rise_of_dest? {dest : Int64} (h : i.dest? = some dest) : i.rise = 0 := by
  cases i <;> first | rfl | cases h

/-- In level code a step comes to the depth that its instruction leads to. -/
theorem Follows.depth (hl : Leveled is) (h : i.Follows is m m') :
    depthAt is m'.position = depthAt is m.position + i.rise := by
  rcases h.place with hnext | ⟨dest, hd, hto⟩
  · rw [hnext, depthAt_next h.here]
  · rw [(hl.jumps _ i h.here dest _ hd hto).depth, rise_of_dest? hd, Int.add_zero]

end Instruction

namespace Exec

variable {host : Host σ} {c : Code} {is : List Instruction} {m m' : Machine} {s s' : σ}

theorem follows_of_step (hc : c.Closed (Instruction.located 0 is))
    (hm : m.OnTrack c (Instruction.located 0 is) .run) (hrun : m.running = true)
    (h : steps host 1 (m, s) = .ok false (m', s')) :
    m'.running = true ∧ ∃ i : Instruction, i.Follows is m m' := by
  obtain ⟨i, hi, hlegible, hholds, hdest⟩ := hm.instruction hc hrun
  have hkept := i.keeps_perform (m := m) (host.respects_true m.mode fun _ => True) hlegible
    (fun _ _ => trivial) (fun _ _ _ _ _ _ _ _ => trivial) hdest (m.position + i.bytes.length) s
    trivial
  have hagree : Agrees (instruction host (m, s)) _ := instruction_of_holds hlegible hholds
  rw [steps_succ, step, if_pos hrun] at h
  cases hr : i.perform host (m.position + i.bytes.length) (m, s) with
  | error e w =>
    rw [hr] at hagree
    obtain ⟨q, hq⟩ := hagree
    simp only [hq] at h
    cases h
  | ok more w =>
    rw [hr] at hkept hagree
    have hq : instruction host (m, s) = .ok more w := hagree
    simp only [hq] at h
    cases more with
    | false => cases h
    | true =>
      cases h
      obtain ⟨_, hmoves⟩ := hkept
      refine ⟨?_, i, hi, hmoves.goesOn rfl, i.shifts_of_perform hm.mode hr, hmoves.place⟩
      rw [hmoves.running, hrun]
      rfl

section
variable (hc : c.Closed (Instruction.located 0 is)) (hl : Instruction.Leveled is)
include hc hl

/-- One step of level code. -/
theorem step_atDepth (hm : m.AtDepth c is) (h : steps host 1 (m, s) = .ok false (m', s')) :
    m'.AtDepth c is ∧ ∃ i : Instruction, i.Follows is m m' := by
  obtain ⟨hrun, i, hi⟩ := follows_of_step hc hm.track hm.running h
  have htrack := steps_onTrack hc host hm.track 1 s trivial
  rw [h] at htrack
  refine ⟨⟨htrack.2, hrun, ?_⟩, i, hi⟩
  rw [hi.depth hl, hi.shifts.height, hm.height]

/-- A run of level code: between any two steps, the stack is as high as the depth of the
position says. -/
theorem goes_atDepth {w w' : Machine × σ} (hw : w.1.AtDepth c is) (h : Goes host w w') :
    w'.1.AtDepth c is :=
  h.keeps (P := fun v => v.1.AtDepth c is) (fun _ _ hv hstep => (step_atDepth hc hl hv hstep).1) hw

end

end Exec

/-- A run from the start of the code begins with an empty stack, at the depth that its
first instruction has. -/
theorem Machine.start_atDepth {c : Code} {is : List Instruction} {i : Instruction}
    (h : c.instructions = .ok (Instruction.located 0 is))
    (hi : (0, i) ∈ Instruction.located 0 is) (lock : Bool) (m₀ : Machine) :
    ∃ m, start c 0 lock m₀ = .ok () m ∧ m.AtDepth c is :=
  ⟨_, start_eq_ok (Code.has_of_mem h hi).lt_size lock m₀, ⟨rfl, rfl, fun _ => ⟨i, hi⟩⟩, rfl,
    (Instruction.depthAt_zero is).symm⟩

-- ============================================================================
-- What is saved is restored
-- ============================================================================

/-- The stack `t` has the elements of `s` below all others. -/
def Stack.Below (s t : Stack α) : Prop :=
  ∃ extra, t = { s with items := s.items ++ extra }

theorem Stack.below_refl (s : Stack α) : s.Below s :=
  ⟨#[], by rw [Array.append_empty]⟩

theorem Stack.Below.push {s t : Stack α} (h : s.Below t) (a : α) :
    s.Below { t with items := t.items.push a } := by
  obtain ⟨extra, rfl⟩ := h
  exact ⟨extra.push a, by rw [Array.append_push]⟩

theorem Stack.Below.size_le {s t : Stack α} (h : s.Below t) : s.size ≤ t.size := by
  obtain ⟨extra, rfl⟩ := h
  rw [Stack.size, Stack.size, Array.size_append]
  omega

/-- Without its top element a stack is still above one that is not higher, or it was
that stack. -/
theorem Stack.Below.of_push {s t : Stack α} {a : α}
    (h : s.Below { t with items := t.items.push a }) :
    s.Below t ∨ s = { t with items := t.items.push a } := by
  obtain ⟨extra, hextra⟩ := h
  by_cases hempty : extra.size = 0
  · right
    rw [hextra, Array.eq_empty_of_size_eq_zero hempty, Array.append_empty]
  · left
    obtain ⟨rest, b, rfl⟩ := Array.eq_push_of_size_ne_zero hempty
    injection hextra with hoverflow hunderflow hitems
    rw [Array.append_push, Array.push_eq_push] at hitems
    refine ⟨rest, ?_⟩
    rw [← hitems.2, ← hoverflow, ← hunderflow]

namespace Instruction

/-- A stretch of code between two instructions that lies deeper than both. -/
structure Basin (is : List Instruction) (a z : Nat) : Prop where
  start : ∃ i, (a, i) ∈ located 0 is
  inner : ∃ b i, (b, i) ∈ located 0 is ∧ a < b ∧ b < z
  finish : ∃ i, (z, i) ∈ located 0 is
  even : depthAt is z = depthAt is a
  deeper : ∀ b i, (b, i) ∈ located 0 is → a < b → b < z → depthAt is a < depthAt is b

variable {is : List Instruction} {i : Instruction} {m m' : Machine} {a z : Nat}

/-- Only a `push` raises the stack, and only a `pop` lowers it. -/
theorem rise_cases (i : Instruction) : (∃ x, i = .push x) ∨ (∃ x, i = .pop x) ∨ i.rise = 0 := by
  cases i with
  | push x => exact .inl ⟨x, rfl⟩
  | pop x => exact .inr (.inl ⟨x, rfl⟩)
  | _ => exact .inr (.inr rfl)

/-- A basin begins with a `push`. -/
theorem Basin.push (h : Basin is a z) (ha : (a, i) ∈ located 0 is)
    (hnext : ∃ j, (a + i.bytes.length, j) ∈ located 0 is) :
    a + i.bytes.length < z ∧ ∃ x, i = .push x := by
  obtain ⟨b, k, hb, hab, hbz⟩ := h.inner
  obtain ⟨j, hj⟩ := hnext
  have htwo := i.two_le_length_bytes
  have hle := located_apart ha hb hab
  have hdeeper := h.deeper _ j hj (by omega) (by omega)
  rw [depthAt_next ha] at hdeeper
  refine ⟨by omega, ?_⟩
  rcases i.rise_cases with hpush | ⟨x, rfl⟩ | hzero
  · exact hpush
  · rw [rise_pop] at hdeeper
    omega
  · omega

/-- From inside a basin, a step in level code leads to another place inside, or by a `pop`
to the end of the basin. -/
theorem Basin.step (h : Basin is a z) (hl : Leveled is) (hi : i.Follows is m m')
    (hm : a < m.position ∧ m.position < z) (hm' : ∃ j, (m'.position, j) ∈ located 0 is) :
    a < m'.position ∧ (m'.position < z ∨ m'.position = z ∧ ∃ x, i = .pop x) := by
  obtain ⟨j, hj⟩ := hm'
  obtain ⟨k, hk⟩ := h.finish
  have hdepth := hi.depth hl
  have hhere := h.deeper _ i hi.here hm.1 hm.2
  have heven := h.even
  rcases hi.place with hnext | ⟨dest, hd, hto⟩
  · -- behind the instruction
    have hle := located_apart hi.here hk hm.2
    refine ⟨by omega, ?_⟩
    by_cases hlt : m'.position < z
    · exact .inl hlt
    · have hz : m'.position = z := by omega
      refine .inr ⟨hz, ?_⟩
      rw [hz] at hdepth
      rcases i.rise_cases with ⟨x, rfl⟩ | hpop | hzero
      · rw [rise_push] at hdepth
        omega
      · exact hpop
      · omega
  · -- a jump that crossed an end of the basin would pass code that lies lower
    have hlevel := hl.jumps _ i hi.here dest _ hd hto
    obtain ⟨l, hstart⟩ := h.start
    have hlow : a < m'.position := by
      by_contra hle
      have habove := hlevel.above a l hstart (by omega) (by omega)
      omega
    have hhigh : m'.position < z := by
      by_contra hge
      have habove := hlevel.above z k hk (by omega) (by omega)
      omega
    exact ⟨hlow, .inl hhigh⟩

end Instruction

namespace Exec

variable {host : Host σ} {c : Code} {is : List Instruction}

/-- The machine stands inside the basin and has on its stack what was saved when it was
entered in the state `m`. -/
structure Inside (m : Machine) (a z : Nat) (m' : Machine) : Prop where
  low : a < m'.position
  high : m'.position < z
  saved : (m.savedStack caseName).Below m'.stack

/-- The machine stands at `z`, and its stack and the value under test are those of
`m`. -/
structure Restored (m : Machine) (z : Nat) (m' : Machine) : Prop where
  position : m'.position = z
  stack : m'.stack = m.stack
  value : m'.store.fetch caseName = m.store.fetch caseName

section
variable {a z : Nat} {m m' m₀ : Machine} (hl : Instruction.Leveled is)
  (hb : Instruction.Basin is a z)
include hl hb

/-- The step that enters a basin. -/
theorem inside_of_enter {i : Instruction} (hi : i.Follows is m m') (ha : m.position = a)
    (hnext : ∃ j, (a + i.bytes.length, j) ∈ Instruction.located 0 is) : Inside m a z m' := by
  subst ha
  obtain ⟨hlt, x, rfl⟩ := hb.push hi.here hnext
  have htwo := (Instruction.push x).two_le_length_bytes
  have hplace : m'.position = m.position + (Instruction.push x).bytes.length := by
    rcases hi.place with hplace | ⟨dest, hd, _⟩
    · exact hplace
    · cases hd
  obtain rfl := hl.saves _ (Instruction.mem_of_mem_located hi.here) x (.inl rfl)
  refine ⟨by omega, by omega, ?_⟩
  rw [show m'.stack = m.savedStack caseName from hi.shifts]
  exact Stack.below_refl _

/-- A step inside a basin stays inside, or it leaves the basin at its end with what was
saved. -/
theorem inside_step {i : Instruction} (hm : Inside m₀ a z m) (hi : i.Follows is m m')
    (hm' : m'.AtDepth c is) (h₀ : (m₀.stack.size : Int) = Instruction.depthAt is a) :
    Inside m₀ a z m' ∨ Restored m₀ z m' := by
  obtain ⟨j, hj⟩ := hm'.track.start hm'.running
  obtain ⟨hlow, hhigh⟩ := hb.step hl hi ⟨hm.low, hm.high⟩ ⟨j, hj⟩
  have hheight := hm'.height
  have heven := hb.even
  rcases hi.shifts.cases with ⟨x, rfl, hstack⟩ | ⟨x, rfl, hstack⟩ | ⟨hrise, hstack⟩
  · rcases hhigh with hhigh | ⟨_, y, hy⟩
    · refine .inl ⟨hlow, hhigh, ?_⟩
      rw [hstack]
      exact hm.saved.push _
    · cases hy
  · obtain rfl := hl.saves _ (Instruction.mem_of_mem_located hi.here) x (.inr rfl)
    have hsaved := hm.saved
    rw [hstack] at hsaved
    rcases hsaved.of_push with hbelow | heq
    · -- something is left above what was saved, so this is not the end of the basin
      have hle : m₀.stack.size + 1 ≤ m'.stack.size := by
        rw [← m₀.size_savedStack caseName]
        exact hbelow.size_le
      rcases hhigh with hhigh | ⟨hz, _⟩
      · exact .inl ⟨hlow, hhigh, hbelow⟩
      · rw [hz] at hheight
        omega
    · -- what was saved has been taken, so this is the end of the basin
      obtain ⟨hst, hvalue⟩ := Machine.savedStack_inj heq
      rcases hhigh with hhigh | ⟨hz, _⟩
      · have hdeeper := hb.deeper _ j hj hlow hhigh
        rw [← hst] at hheight
        omega
      · exact .inr ⟨hz, hst.symm, hvalue.symm⟩
  · rcases hhigh with hhigh | ⟨_, y, hy⟩
    · refine .inl ⟨hlow, hhigh, ?_⟩
      rw [hstack]
      exact hm.saved
    · rw [hy, Instruction.rise_pop] at hrise
      omega

/-- A run that enters a basin stays in it until it comes to its end, where the stack and
the value under test are what they were at its start. -/
theorem restores (hc : c.Closed (Instruction.located 0 is)) {w w' : Machine × σ}
    (hw : w.1.AtDepth c is) (ha : w.1.position = a) (h : Goes host w w') :
    (a ≤ w'.1.position ∧ w'.1.position < z) ∨
      ∃ v, Goes host w v ∧ Goes host v w' ∧ Restored w.1 z v.1 := by
  have h₀ : (w.1.stack.size : Int) = Instruction.depthAt is a := by rw [hw.height, ha]
  -- the run has not begun, is inside, or has come out
  have hrun : Goes host w w' ∧ w'.1.AtDepth c is ∧ (w' = w ∨ Inside w.1 a z w'.1 ∨
      ∃ v, Goes host w v ∧ Goes host v w' ∧ Restored w.1 z v.1) := by
    refine h.keeps (P := fun v' => Goes host w v' ∧ v'.1.AtDepth c is ∧ (v' = w ∨
      Inside w.1 a z v'.1 ∨ ∃ v, Goes host w v ∧ Goes host v v' ∧ Restored w.1 z v.1)) ?_
      ⟨.refl host w, hw, .inl rfl⟩
    rintro u u' ⟨hgoes, hu, hwhere⟩ hstep
    obtain ⟨hu', i, hi⟩ := step_atDepth hc hl hu hstep
    have hgoes' : Goes host w u' := hgoes.trans ⟨1, hstep⟩
    refine ⟨hgoes', hu', .inr ?_⟩
    rcases hwhere with rfl | hin | ⟨v, hv, hvu, hrestored⟩
    · have hnext := hc.next hi.here hi.goesOn
      rw [ha] at hnext
      exact .inl (inside_of_enter hl hb hi ha hnext)
    · rcases inside_step hl hb hin hi hu' h₀ with hin' | hout
      · exact .inl hin'
      · exact .inr ⟨u', hgoes', .refl host u', hout⟩
    · exact .inr ⟨v, hv, hvu.trans ⟨1, hstep⟩, hrestored⟩
  rcases hrun.2.2 with rfl | hin | hout
  · obtain ⟨b, i, _, hab, hbz⟩ := hb.inner
    exact .inl ⟨by omega, by omega⟩
  · have hlow := hin.low
    exact .inl ⟨by omega, hin.high⟩
  · exact .inr hout

end

end Exec

end ScriptMachine
