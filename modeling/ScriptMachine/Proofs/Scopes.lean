/-
  ScriptMachine.Proofs.Scopes

  Labels are recorded once.  In consistent blocks the open ones have different
  numbers, and of an open block only the points it has reached are recorded; so
  `start`, `link` and `close` each record a label that had no address yet, and an
  address that was recorded stays (`Blocks.Extends`).
-/

import Mathlib.Data.List.Basic
import ScriptMachine.Scope.Blocks

namespace ScriptMachine

namespace Blocks

/-! ## What the operations do -/

theorem start_eq_ok_iff {b b' : Blocks} {address : Nat} {l : Label} :
    b.start address = .ok (l, b') ↔ b.allocated < b.limit ∧ l = ⟨b.allocated, .start⟩ ∧
      b' = { b with
        allocated := b.allocated + 1
        opened := ⟨b.allocated, 0⟩ :: b.opened }.record ⟨b.allocated, .start⟩ address := by
  unfold start
  split
  · simp only [reduceCtorEq, false_iff]
    omega
  · simp only [Except.ok.injEq, Prod.mk.injEq, OpenBlock.startLabel]
    constructor
    · rintro ⟨rfl, rfl⟩
      exact ⟨by omega, rfl, rfl⟩
    · rintro ⟨_, rfl, rfl⟩
      exact ⟨rfl, rfl⟩

theorem link_eq_ok_iff {b b' : Blocks} {address : Nat} {l : Label} :
    b.link address = .ok (l, b') ↔ ∃ o rest, b.opened = o :: rest ∧ o.steps ≠ 255 ∧
      l = ⟨o.number, .step (o.steps + 1)⟩ ∧
      b' = { b with opened := { o with steps := o.steps + 1 } :: rest }.record l address := by
  unfold link innermost
  cases hb : b.opened with
  | nil => simp [bind, Except.bind]
  | cons o rest =>
    by_cases hs : o.steps = 255
    · simp [bind, Except.bind, OpenBlock.nextLabel, hs]
    · simp only [bind, Except.bind, OpenBlock.nextLabel, hs, if_false, pure, Except.pure,
        List.tail_cons, Except.ok.injEq, Prod.mk.injEq, List.cons.injEq]
      constructor
      · rintro ⟨rfl, rfl⟩
        exact ⟨o, rest, ⟨rfl, rfl⟩, hs, rfl, rfl⟩
      · rintro ⟨_, _, ⟨rfl, rfl⟩, _, rfl, rfl⟩
        exact ⟨rfl, rfl⟩

theorem close_eq_ok_iff {b b' : Blocks} {address : Nat} {l : Label} :
    b.close address = .ok (l, b') ↔ ∃ o rest, b.opened = o :: rest ∧ l = ⟨o.number, .finish⟩ ∧
      b' = { b with opened := rest }.record l address := by
  unfold close innermost
  cases hb : b.opened with
  | nil => simp [bind, Except.bind]
  | cons o rest =>
    simp only [bind, Except.bind, pure, Except.pure, List.tail_cons, Except.ok.injEq,
      Prod.mk.injEq, List.cons.injEq, OpenBlock.endLabel]
    constructor
    · rintro ⟨rfl, rfl⟩
      exact ⟨o, rest, ⟨rfl, rfl⟩, rfl, rfl⟩
    · rintro ⟨_, _, ⟨rfl, rfl⟩, rfl, rfl⟩
      exact ⟨rfl, rfl⟩

theorem startLabel_eq_ok_iff {b : Blocks} {l : Label} :
    b.startLabel = .ok l ↔ ∃ o rest, b.opened = o :: rest ∧ l = ⟨o.number, .start⟩ := by
  unfold startLabel innermost
  cases hb : b.opened with
  | nil => simp [bind, Except.bind]
  | cons o rest => simp [bind, Except.bind, pure, Except.pure, OpenBlock.startLabel, eq_comm]

theorem endLabel_eq_ok_iff {b : Blocks} {l : Label} :
    b.endLabel = .ok l ↔ ∃ o rest, b.opened = o :: rest ∧ l = ⟨o.number, .finish⟩ := by
  unfold endLabel innermost
  cases hb : b.opened with
  | nil => simp [bind, Except.bind]
  | cons o rest => simp [bind, Except.bind, pure, Except.pure, OpenBlock.endLabel, eq_comm]

theorem nextLabel_eq_ok_iff {b : Blocks} {l : Label} :
    b.nextLabel = .ok l ↔ ∃ o rest, b.opened = o :: rest ∧ o.steps ≠ 255 ∧
      l = ⟨o.number, .step (o.steps + 1)⟩ := by
  unfold nextLabel innermost
  cases hb : b.opened with
  | nil => simp [bind, Except.bind]
  | cons o rest =>
    by_cases hs : o.steps = 255
    · simp [bind, Except.bind, OpenBlock.nextLabel, hs]
    · simp [bind, Except.bind, OpenBlock.nextLabel, hs, eq_comm]

@[simp] theorem opened_record (b : Blocks) (l : Label) (address : Nat) :
    (b.record l address).opened = b.opened := rfl

@[simp] theorem allocated_record (b : Blocks) (l : Label) (address : Nat) :
    (b.record l address).allocated = b.allocated := rfl

@[simp] theorem limit_record (b : Blocks) (l : Label) (address : Nat) :
    (b.record l address).limit = b.limit := rfl

/-! ## Consistent blocks -/

/-- The open block has come past the point. -/
def Reached (o : OpenBlock) : Point → Prop
  | .start => True
  | .step n => n.toNat ≤ o.steps.toNat
  | .finish => False

/-- Open blocks have different numbers, all given out, and nothing is recorded
that was not reached. -/
structure Consistent (b : Blocks) : Prop where
  given : ∀ o ∈ b.opened, o.number < b.allocated
  different : (b.opened.map OpenBlock.number).Nodup
  allotted : ∀ l a, b.address? l = some a → l.block < b.allocated
  reached : ∀ l a, b.address? l = some a → ∀ o ∈ b.opened, o.number = l.block → Reached o l.point

/-- What is recorded in `b` is recorded in `b'`. -/
def Extends (b b' : Blocks) : Prop :=
  ∀ l a, b.address? l = some a → b'.address? l = some a

theorem Extends.refl (b : Blocks) : b.Extends b :=
  fun _ _ h => h

theorem Extends.trans {a b c : Blocks} (h : a.Extends b) (k : b.Extends c) : a.Extends c :=
  fun l x hx => k l x (h l x hx)

theorem extends_record {b b' : Blocks} {l : Label} {address : Nat}
    (hb : b'.addresses = b.addresses) (hl : b.address? l = none) :
    b.Extends (b'.record l address) := by
  intro m a hm
  have hne : l ≠ m := by
    rintro rfl
    rw [hl] at hm
    cases hm
  rw [address?_record, if_neg hne, address?, hb]
  exact hm

theorem consistent_empty (limit : Nat) : Consistent { limit } where
  given := by intro o ho; cases ho
  different := List.nodup_nil
  allotted := by intro l a h; simp [address?] at h
  reached := by intro l a h; simp [address?] at h

section
variable {b b' : Blocks} {address : Nat} {l : Label} (hb : b.Consistent)
include hb

theorem Consistent.address?_start :
    b.address? ⟨b.allocated, .start⟩ = none := by
  cases h : b.address? ⟨b.allocated, .start⟩ with
  | none => rfl
  | some a => exact absurd (hb.allotted _ a h) (Nat.lt_irrefl _)

theorem Consistent.address?_next {o : OpenBlock} (ho : o ∈ b.opened) (hs : o.steps ≠ 255) :
    b.address? ⟨o.number, .step (o.steps + 1)⟩ = none := by
  cases h : b.address? ⟨o.number, .step (o.steps + 1)⟩ with
  | none => rfl
  | some a =>
    have hr : (o.steps + 1).toNat ≤ o.steps.toNat := hb.reached _ a h o ho rfl
    have hne : o.steps.toNat ≠ 255 := fun hn => hs (UInt8.toNat_inj.1 hn)
    have hlt := o.steps.toNat_lt
    rw [UInt8.toNat_add, UInt8.toNat_one] at hr
    omega

theorem Consistent.address?_finish {o : OpenBlock} (ho : o ∈ b.opened) :
    b.address? ⟨o.number, .finish⟩ = none := by
  cases h : b.address? ⟨o.number, .finish⟩ with
  | none => rfl
  | some a => exact (hb.reached _ a h o ho rfl).elim

theorem Consistent.start (h : b.start address = .ok (l, b')) : b'.Consistent ∧ b.Extends b' := by
  obtain ⟨_, rfl, rfl⟩ := start_eq_ok_iff.1 h
  refine ⟨⟨?_, ?_, ?_, ?_⟩, extends_record rfl hb.address?_start⟩
  · intro o ho
    rcases List.mem_cons.1 ho with rfl | ho
    · exact Nat.lt_succ_self _
    · exact Nat.lt_succ_of_lt (hb.given o ho)
  · refine List.nodup_cons.2 ⟨?_, hb.different⟩
    intro hmem
    obtain ⟨o, ho, hnum⟩ := List.mem_map.1 hmem
    have := hb.given o ho
    rw [hnum] at this
    exact Nat.lt_irrefl _ this
  · intro m a hm
    rw [address?_record] at hm
    split at hm
    · subst_vars
      exact Nat.lt_succ_self _
    · exact Nat.lt_succ_of_lt (hb.allotted m a hm)
  · intro m a hm o ho hnum
    rw [address?_record] at hm
    split at hm
    · subst_vars
      trivial
    · have hm' : b.address? m = some a := hm
      rcases List.mem_cons.1 ho with rfl | ho
      · have := hb.allotted m a hm'
        rw [← hnum] at this
        exact absurd this (Nat.lt_irrefl _)
      · exact hb.reached m a hm' o ho hnum

theorem Consistent.link (h : b.link address = .ok (l, b')) : b'.Consistent ∧ b.Extends b' := by
  obtain ⟨o, rest, ho, hs, rfl, rfl⟩ := link_eq_ok_iff.1 h
  have hmem : o ∈ b.opened := by rw [ho]; exact List.mem_cons_self
  have hdiff := hb.different
  rw [ho, List.map_cons, List.nodup_cons] at hdiff
  have hsteps : (o.steps + 1).toNat = o.steps.toNat + 1 := by
    have hne : o.steps.toNat ≠ 255 := fun hn => hs (UInt8.toNat_inj.1 hn)
    have hlt := o.steps.toNat_lt
    rw [UInt8.toNat_add, UInt8.toNat_one]
    omega
  refine ⟨⟨?_, ?_, ?_, ?_⟩, extends_record rfl (hb.address?_next hmem hs)⟩
  · intro u hu
    rcases List.mem_cons.1 hu with rfl | hu
    · exact hb.given o hmem
    · exact hb.given u (by rw [ho]; exact List.mem_cons_of_mem _ hu)
  · exact List.nodup_cons.2 hdiff
  · intro m a hm
    rw [address?_record] at hm
    split at hm
    · subst_vars
      exact hb.given o hmem
    · exact hb.allotted m a hm
  · intro m a hm u hu hnum
    rw [address?_record] at hm
    split at hm
    · subst_vars
      rcases List.mem_cons.1 hu with rfl | hu
      · exact Nat.le_refl _
      · exact absurd (List.mem_map.2 ⟨u, hu, hnum⟩) hdiff.1
    · have hm' : b.address? m = some a := hm
      rcases List.mem_cons.1 hu with rfl | hu
      · have hr := hb.reached m a hm' o hmem hnum
        cases hp : m.point with
        | start => trivial
        | step n =>
          rw [hp] at hr
          have hle : n.toNat ≤ o.steps.toNat := hr
          show n.toNat ≤ (o.steps + 1).toNat
          omega
        | finish => rw [hp] at hr; exact hr.elim
      · exact hb.reached m a hm' u (by rw [ho]; exact List.mem_cons_of_mem _ hu) hnum

theorem Consistent.close (h : b.close address = .ok (l, b')) : b'.Consistent ∧ b.Extends b' := by
  obtain ⟨o, rest, ho, rfl, rfl⟩ := close_eq_ok_iff.1 h
  have hmem : o ∈ b.opened := by rw [ho]; exact List.mem_cons_self
  have hdiff := hb.different
  rw [ho, List.map_cons, List.nodup_cons] at hdiff
  refine ⟨⟨?_, hdiff.2, ?_, ?_⟩, extends_record rfl (hb.address?_finish hmem)⟩
  · intro u hu
    exact hb.given u (by rw [ho]; exact List.mem_cons_of_mem _ hu)
  · intro m a hm
    rw [address?_record] at hm
    split at hm
    · subst_vars
      exact hb.given o hmem
    · exact hb.allotted m a hm
  · intro m a hm u hu hnum
    rw [address?_record] at hm
    split at hm
    · subst_vars
      exact absurd (List.mem_map.2 ⟨u, hu, hnum⟩) hdiff.1
    · exact hb.reached m a hm u (by rw [ho]; exact List.mem_cons_of_mem _ hu) hnum

end

end Blocks

end ScriptMachine
