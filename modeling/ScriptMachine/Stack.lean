/-
  ScriptMachine.Stack

  Stacks of limited size.  A push beyond the limit stores its element and then
  reports the overflow; a pop from an empty stack reports the underflow.  Each
  stack has its own words for the two.
-/

import ScriptMachine.Cause

namespace ScriptMachine

/-- A stack with the messages of its overflow and underflow; the top element is
the last one. -/
structure Stack (α : Type) where
  overflow : String
  underflow : String
  items : Array α := #[]

namespace Stack

variable {α : Type}

/-- The number of elements a stack holds without complaint. -/
def limit : Nat := 65535

/-- Number of elements. -/
def size (s : Stack α) : Nat :=
  s.items.size

/-- The top element. -/
def top? (s : Stack α) : Option α :=
  s.items.back?

/-- Removes all elements. -/
def clear (s : Stack α) : Stack α :=
  { s with items := #[] }

/-- Replaces the top element, if there is one. -/
def setTop (s : Stack α) (a : α) : Stack α :=
  { s with items := s.items.setIfInBounds (s.items.size - 1) a }

/-- Puts an element on top. -/
def push (a : α) : EStateM Error (Stack α) Unit := fun s =>
  let s := { s with items := s.items.push a }
  if s.size ≤ limit then .ok () s else .error (.of (.stackOverflow s.overflow)) s

/-- Takes the top element. -/
def pop : EStateM Error (Stack α) α := fun s =>
  match s.top? with
  | some a => .ok a { s with items := s.items.pop }
  | none => .error (.of (.stackUnderflow s.underflow)) s

/-! ## Small facts -/

theorem push_eq_ok_iff {a : α} {u : Unit} {s s' : Stack α} :
    push a s = .ok u s' ↔ s.size < limit ∧ s' = { s with items := s.items.push a } := by
  unfold push
  simp only [size, Array.size_push]
  split
  · rename_i h
    simp only [EStateM.Result.ok.injEq, true_and]
    constructor
    · rintro rfl
      exact ⟨h, rfl⟩
    · rintro ⟨_, rfl⟩
      rfl
  · rename_i h
    simp only [reduceCtorEq, false_iff, not_and]
    intro hlt
    omega

theorem pop_eq_ok_iff {a : α} {s s' : Stack α} :
    pop s = .ok a s' ↔ s.top? = some a ∧ s' = { s with items := s.items.pop } := by
  unfold pop
  cases h : s.top? with
  | none => simp
  | some b =>
    simp only [EStateM.Result.ok.injEq, Option.some.injEq]
    constructor
    · rintro ⟨rfl, rfl⟩
      exact ⟨rfl, rfl⟩
    · rintro ⟨rfl, rfl⟩
      exact ⟨rfl, rfl⟩

theorem eq_of_push_eq_error {a : α} {s s' : Stack α} {e : Error} (h : push a s = .error e s') :
    e = .of (.stackOverflow s.overflow) := by
  unfold push at h
  dsimp only at h
  split at h <;> cases h
  rfl

theorem eq_of_pop_eq_error {s s' : Stack α} {e : Error} (h : pop s = .error e s') :
    e = .of (.stackUnderflow s.underflow) := by
  unfold pop at h
  split at h <;> cases h
  rfl

@[simp] theorem top?_push (s : Stack α) (a : α) :
    ({ s with items := s.items.push a } : Stack α).top? = some a :=
  Array.back?_push

@[simp] theorem pop_push (s : Stack α) (a : α) :
    ({ s with items := (s.items.push a).pop } : Stack α) = s := by
  rw [Array.pop_push]

end Stack

end ScriptMachine
