/-
  ScriptMachine.Proofs.Structured.Leveling

  Structured scripts are level.  Wherever a part of a script stands, the stack is as
  deep behind it as in front of it and never lower on the way (`Span`); so, when every
  exit belongs to a loop that no choice stands between, all jumps of the part stay on
  the floor that the innermost choice around it makes (`Tame`).
-/

import ScriptMachine.Proofs.Levels
import ScriptMachine.Proofs.Structured.Placement

namespace ScriptMachine

/-- Only one instruction stands at an address. -/
theorem Code.Has.unique {c : Code} {p q r : Nat} {i j : Instruction} (hi : c.Has p i q)
    (hj : c.Has p j r) : i = j := by
  obtain ⟨_, hreadi⟩ := reads_instruction_iff.2 hi
  obtain ⟨_, hreadj⟩ := reads_instruction_iff.2 hj
  rw [hreadi] at hreadj
  cases hreadj
  rfl

namespace Structured

open Instruction (located depthAt Level)

variable {c : Code} {is : List Instruction}

/-- An instruction of the list starts at the address. -/
def Starts (is : List Instruction) (p : Nat) : Prop :=
  ∃ i, (p, i) ∈ located 0 is

/-- What stands in the stream where an instruction starts is this instruction. -/
theorem mem_of_has (hc : c.Closed (located 0 is)) {p q : Nat} {i : Instruction}
    (hp : Starts is p) (h : c.Has p i q) : (p, i) ∈ located 0 is := by
  obtain ⟨j, hj⟩ := hp
  rw [h.unique (Code.has_of_mem hc.reading hj)]
  exact hj

-- ============================================================================
-- Depths around the parts of a script
-- ============================================================================

/-- From `start` to `finish` the stack comes back to its depth and is never lower. -/
structure Span (is : List Instruction) (start finish : Nat) : Prop where
  le : start ≤ finish
  starts : Starts is finish
  even : depthAt is finish = depthAt is start
  above : ∀ a i, (a, i) ∈ located 0 is → start ≤ a → a ≤ finish → depthAt is start ≤ depthAt is a

section
variable {p q r t : Nat}

theorem Span.refl (hp : Starts is p) : Span is p p where
  le := Nat.le_refl p
  starts := hp
  even := rfl
  above := by
    intro a i _ hle hge
    exact Int.le_of_eq (by rw [Nat.le_antisymm hge hle])

theorem Span.trans (h : Span is p q) (k : Span is q r) : Span is p r where
  le := Nat.le_trans h.le k.le
  starts := k.starts
  even := k.even.trans h.even
  above := by
    intro a i ha hle hge
    by_cases haq : a ≤ q
    · exact h.above a i ha hle haq
    · have habove := k.above a i ha (by omega) hge
      rw [h.even] at habove
      exact habove

section
variable (hc : c.Closed (located 0 is)) (hp : Starts is p)
include hc hp

/-- Between an instruction and the next one there is none. -/
theorem eq_or_le_of_has {i j : Instruction} {a : Nat} (h : c.Has p i q)
    (ha : (a, j) ∈ located 0 is) (hle : p ≤ a) : a = p ∨ q ≤ a := by
  rcases Nat.eq_or_lt_of_le hle with heq | hlt
  · exact .inl heq.symm
  · rw [h.next]
    exact .inr (Instruction.located_apart (mem_of_has hc hp h) ha hlt)

theorem starts_of_has {i : Instruction} (h : c.Has p i q) (hi : i ≠ .stop) : Starts is q := by
  rw [h.next]
  exact hc.next (mem_of_has hc hp h) hi

theorem depthAt_of_has {i : Instruction} (h : c.Has p i q) :
    depthAt is q = depthAt is p + i.rise := by
  rw [h.next]
  exact Instruction.depthAt_next (mem_of_has hc hp h)

/-- An instruction that leaves the stack alone. -/
theorem span_of_has {i : Instruction} (h : c.Has p i q) (hi : i ≠ .stop) (hrise : i.rise = 0) :
    Span is p q where
  le := by
    have hnext := h.next
    omega
  starts := starts_of_has hc hp h hi
  even := by rw [depthAt_of_has hc hp h, hrise, Int.add_zero]
  above := by
    intro a j ha hle hge
    have hdepth := depthAt_of_has hc hp h
    rcases eq_or_le_of_has hc hp h ha hle with heq | hqa
    · subst heq
      omega
    · have heq := Nat.le_antisymm hge hqa
      subst heq
      omega

/-- What stands between a `push` and a `pop` lies deeper. -/
theorem span_of_push {x y : String} (hpush : c.Has p (.push x) q) (hmid : Span is q r)
    (hpop : c.Has r (.pop y) t) : Span is p t := by
  have hq := depthAt_of_has hc hp hpush
  have ht := depthAt_of_has hc hmid.starts hpop
  have heven := hmid.even
  rw [Instruction.rise_push] at hq
  rw [Instruction.rise_pop] at ht
  refine ⟨?_, starts_of_has hc hmid.starts hpop (fun h => by cases h), by omega, ?_⟩
  · have hle := hmid.le
    have hnext := hpush.next
    have hnext' := hpop.next
    omega
  · intro a i ha hle hge
    rcases eq_or_le_of_has hc hp hpush ha hle with heq | hqa
    · subst heq
      omega
    · by_cases har : a ≤ r
      · have habove := hmid.above a i ha hqa har
        omega
      · rcases eq_or_le_of_has hc hmid.starts hpop ha (by omega) with heq | hta
        · omega
        · rw [Nat.le_antisymm hge hta]
          omega

end

end

theorem Change.rise_instruction (change : Change) (x : Name) :
    change.instruction x ≠ .stop ∧ (change.instruction x).rise = 0 := by
  cases change <;> exact ⟨fun h => (nomatch h), rfl⟩

section
variable {start finish exit leave depth : Nat} (hc : c.Closed (located 0 is))
include hc

theorem span_of_jumps (hs : Starts is start) {dest : Nat} (h : Jumps c start dest finish) :
    Span is start finish :=
  span_of_has hc hs h.1 (fun h => by cases h) rfl

theorem span_of_tests (hs : Starts is start) {test : Expr} {n : Nat}
    (h : Tests c start test finish n) : Span is start finish :=
  span_of_has hc hs h.1 (fun h => by cases h) rfl

theorem span_of_matches (hs : Starts is start) {value : Expr} {n : Nat}
    (h : Matches c start value finish n) : Span is start finish :=
  span_of_has hc hs h.1 (fun h => by cases h) rfl

end

mutual

/-- A statement leaves the stack as deep as it was. -/
theorem Stmt.span {start finish exit leave depth : Nat} (hc : c.Closed (located 0 is))
    (hs : Starts is start) : ∀ {a : Stmt}, a.At c depth start finish exit leave →
    Span is start finish
  | .declare x none, h => by
    rw [Stmt.At] at h
    rw [h]
    exact .refl hs
  | .declare x (some change), h => by
    obtain ⟨hne, hrise⟩ := change.rise_instruction x
    rw [Stmt.At] at h
    exact span_of_has hc hs h hne hrise
  | .assign x change, h => by
    obtain ⟨hne, hrise⟩ := change.rise_instruction x
    rw [Stmt.At] at h
    exact span_of_has hc hs h hne hrise
  | .exit, h => by
    rw [Stmt.At] at h
    exact span_of_jumps hc hs h
  | .leave, h => by
    rw [Stmt.At] at h
    exact span_of_jumps hc hs h.2
  | .branch test body others, h => by
    rw [Stmt.At] at h
    obtain ⟨q, r, n, htest, hbody, hothers⟩ := h
    have hq := span_of_tests hc hs htest
    have hr := Block.span hc hq.starts hbody
    obtain ⟨hn, hfinish⟩ := Branches.span hc hr.starts hothers
    exact (hq.trans hr).trans (hn.trans hfinish)
  | .loop test body, h => by
    rw [Stmt.At] at h
    obtain ⟨q, r, htest, hbody, hjump⟩ := h
    have hq := span_of_tests hc hs htest
    have hr := Block.span hc hq.starts hbody
    exact (hq.trans hr).trans (span_of_jumps hc hr.starts hjump)
  | .choose value clauses, h => by
    rw [Stmt.At] at h
    obtain ⟨_, q, r, t, hpush, hmov, hclauses, hpop⟩ := h
    have hq := starts_of_has hc hs hpush fun h => by cases h
    have hr := span_of_has hc hq hmov (fun h => by cases h) rfl
    exact span_of_push hc hs hpush (hr.trans (Clauses.span hc hr.starts hclauses)) hpop

/-- So does a block. -/
theorem Block.span {start finish exit leave depth : Nat} (hc : c.Closed (located 0 is))
    (hs : Starts is start) : ∀ {a : Block}, a.At c depth start finish exit leave →
    Span is start finish
  | .nil, h => by
    rw [Block.At] at h
    rw [h]
    exact .refl hs
  | .cons a rest, h => by
    rw [Block.At] at h
    obtain ⟨q, ha, hrest⟩ := h
    have hq := Stmt.span hc hs ha
    exact hq.trans (Block.span hc hq.starts hrest)

/-- So do further branches, on the way to the first of their tests and behind it. -/
theorem Branches.span {start next finish exit leave depth : Nat} (hc : c.Closed (located 0 is))
    (hs : Starts is start) : ∀ {a : Branches}, a.At c depth start next finish exit leave →
    Span is start next ∧ Span is next finish
  | .nil, h => by
    rw [Branches.At] at h
    obtain ⟨rfl, rfl⟩ := h
    exact ⟨.refl hs, .refl hs⟩
  | .otherwise body, h => by
    rw [Branches.At] at h
    obtain ⟨hjump, hbody⟩ := h
    have hnext := span_of_jumps hc hs hjump
    exact ⟨hnext, Block.span hc hnext.starts hbody⟩
  | .also test body others, h => by
    rw [Branches.At] at h
    obtain ⟨hjump, q, r, n, htest, hbody, hothers⟩ := h
    have hnext := span_of_jumps hc hs hjump
    have hq := span_of_tests hc hnext.starts htest
    have hr := Block.span hc hq.starts hbody
    obtain ⟨hn, hfinish⟩ := Branches.span hc hr.starts hothers
    exact ⟨hnext, (hq.trans hr).trans (hn.trans hfinish)⟩

/-- So do clauses. -/
theorem Clauses.span {start finish exit leave depth : Nat} (hc : c.Closed (located 0 is))
    (hs : Starts is start) : ∀ {a : Clauses}, a.At c depth start finish exit leave →
    Span is start finish
  | .nil, h => by
    rw [Clauses.At] at h
    rw [h]
    exact .refl hs
  | .case value body rest, h => by
    rw [Clauses.At] at h
    obtain ⟨q, n, hcase, hbody, hrest⟩ := h
    have hq := span_of_matches hc hs hcase
    have hn := Block.span hc hq.starts hbody
    exact (hq.trans hn).trans (Clauses.span hc hn.starts hrest)
  | .default body rest, h => by
    rw [Clauses.At] at h
    obtain ⟨n, hbody, hrest⟩ := h
    have hn := Block.span hc hs hbody
    exact hn.trans (Clauses.span hc hn.starts hrest)

end

-- ============================================================================
-- Jumps of the parts of a script
-- ============================================================================

/-- A stretch of code in which the stack is never lower than a depth. -/
structure Floor where
  low : Nat
  high : Nat
  depth : Int

namespace Floor

/-- The address lies on the floor. -/
structure Carries (f : Floor) (is : List Instruction) (p : Nat) : Prop where
  low : f.low ≤ p
  high : p ≤ f.high
  depth : depthAt is p = f.depth

/-- Nothing of the stretch lies below the floor. -/
def Holds (f : Floor) (is : List Instruction) : Prop :=
  ∀ a i, (a, i) ∈ located 0 is → f.low ≤ a → a ≤ f.high → f.depth ≤ depthAt is a

variable {f : Floor} {p q : Nat}

/-- On a floor one comes level from one address to another. -/
theorem Holds.level (h : f.Holds is) (hp : f.Carries is p) (hq : f.Carries is q) :
    Level is p q where
  depth := by rw [hp.depth, hq.depth]
  above := by
    intro a i ha hle hge
    rw [hp.depth]
    have hplow := hp.low
    have hphigh := hp.high
    have hqlow := hq.low
    have hqhigh := hq.high
    exact h a i ha (by omega) (by omega)

/-- The other end of a span is on the same floor. -/
theorem Carries.span (h : f.Carries is p) (hspan : Span is p q) (hq : q ≤ f.high) :
    f.Carries is q where
  low := Nat.le_trans h.low hspan.le
  high := hq
  depth := by rw [hspan.even, h.depth]

end Floor

/-- The ends of the loop and of the choice around a part, as far as there are any, lie
on the floor. -/
structure Grounded (is : List Instruction) (f : Floor) (looped : Bool)
    (depth exit leave : Nat) : Prop where
  holds : f.Holds is
  exit : looped = true → f.Carries is exit
  leave : 0 < depth → f.Carries is leave

/-- The jump of the instruction is level, and nothing but the value under test is saved
or restored. -/
structure Proper (is : List Instruction) (p : Nat) (i : Instruction) : Prop where
  jump : ∀ dest (b : Nat), i.dest? = some dest → dest.toInt = b → Level is p b
  saves : ∀ x, i = .push x ∨ i = .pop x → x = caseName

/-- All instructions between two addresses are proper. -/
def Tame (is : List Instruction) (start finish : Nat) : Prop :=
  ∀ p i, (p, i) ∈ located 0 is → start ≤ p → p < finish → Proper is p i

theorem tame_refl (p : Nat) : Tame is p p := by
  intro a i _ hle hlt
  omega

theorem Tame.trans {p q r : Nat} (h : Tame is p q) (k : Tame is q r) : Tame is p r := by
  intro a i ha hle hlt
  by_cases haq : a < q
  · exact h a i ha hle haq
  · exact k a i ha (by omega) hlt

/-- An instruction that neither jumps nor touches the stack is proper. -/
theorem proper_plain {p : Nat} {i : Instruction} (hd : i.dest? = none) (hi : i.rise = 0) :
    Proper is p i where
  jump := by
    intro dest b hdest
    rw [hd] at hdest
    cases hdest
  saves := by
    rintro x (rfl | rfl)
    · cases hi
    · cases hi

theorem proper_push (p : Nat) : Proper is p (.push caseName) where
  jump := fun _ _ hdest => (nomatch hdest)
  saves := by
    rintro x (h | h)
    · cases h
      rfl
    · cases h

theorem proper_pop (p : Nat) : Proper is p (.pop caseName) where
  jump := fun _ _ hdest => (nomatch hdest)
  saves := by
    rintro x (h | h)
    · cases h
    · cases h
      rfl

/-- A jump to an address that 63 bits can hold. -/
theorem proper_jump {p n : Nat} {i : Instruction} (hd : i.dest? = some (Int64.ofNat n))
    (hn : n < c.size) (hsize : c.size < 2 ^ 63) (hlevel : Level is p n) : Proper is p i where
  jump := by
    intro dest b hdest hb
    rw [hd] at hdest
    cases hdest
    rw [Int64.toInt_ofNat_of_lt (Nat.lt_trans hn hsize)] at hb
    have heq : n = b := by omega
    rw [← heq]
    exact hlevel
  saves := by
    rintro x (rfl | rfl)
    · cases hd
    · cases hd

section
variable {start finish : Nat} (hc : c.Closed (located 0 is)) (hs : Starts is start)
include hc hs

/-- One instruction. -/
theorem tame_of_has {i : Instruction} (h : c.Has start i finish) (hi : Proper is start i) :
    Tame is start finish := by
  intro a j ha hle hlt
  rcases eq_or_le_of_has hc hs h ha hle with rfl | hge
  · rw [(Code.has_of_mem hc.reading ha).unique h]
    exact hi
  · omega

theorem tame_of_change {change : Change} {x : Name}
    (h : c.Has start (change.instruction x) finish) :
    Tame is start finish := by
  have hplain : (change.instruction x).dest? = none := by cases change <;> rfl
  exact tame_of_has hc hs h (proper_plain hplain (change.rise_instruction x).2)

section
variable (hsize : c.size < 2 ^ 63) {n : Nat} (hlevel : Level is start n)
include hsize hlevel

theorem tame_of_jumps (h : Jumps c start n finish) : Tame is start finish :=
  tame_of_has hc hs h.1 (proper_jump rfl h.2 hsize hlevel)

theorem tame_of_tests {test : Expr} (h : Tests c start test finish n) : Tame is start finish :=
  tame_of_has hc hs h.1 (proper_jump rfl h.2 hsize hlevel)

theorem tame_of_matches {value : Expr} (h : Matches c start value finish n) :
    Tame is start finish :=
  tame_of_has hc hs h.1 (proper_jump rfl h.2 hsize hlevel)

end

end

mutual

/-- The jumps of a statement stay on its floor. -/
theorem Stmt.tame {f : Floor} {looped : Bool} {depth exit leave start finish : Nat}
    (hc : c.Closed (located 0 is)) (hsize : c.size < 2 ^ 63)
    (hg : Grounded is f looped depth exit leave) (hs : Starts is start)
    (hstart : f.Carries is start) (hhigh : finish ≤ f.high) :
    ∀ {a : Stmt}, a.scoped looped = true → a.At c depth start finish exit leave →
      Tame is start finish
  | .declare x none, _, h => by
    rw [Stmt.At] at h
    rw [h]
    exact tame_refl start
  | .declare x (some change), _, h => by
    rw [Stmt.At] at h
    exact tame_of_change hc hs h
  | .assign x change, _, h => by
    rw [Stmt.At] at h
    exact tame_of_change hc hs h
  | .exit, hscoped, h => by
    rw [Stmt.At] at h
    rw [Stmt.scoped] at hscoped
    exact tame_of_jumps hc hs hsize (hg.holds.level hstart (hg.exit hscoped)) h
  | .leave, _, h => by
    rw [Stmt.At] at h
    exact tame_of_jumps hc hs hsize (hg.holds.level hstart (hg.leave h.1)) h.2
  | .branch test body others, hscoped, h => by
    rw [Stmt.At] at h
    rw [Stmt.scoped, Bool.and_eq_true] at hscoped
    obtain ⟨q, r, n, htest, hbody, hothers⟩ := h
    have hq := span_of_tests hc hs htest
    have hr := Block.span hc hq.starts hbody
    obtain ⟨hn, hfinish⟩ := Branches.span hc hr.starts hothers
    have hle : r ≤ f.high ∧ n ≤ f.high := ⟨Nat.le_trans hn.le (Nat.le_trans hfinish.le hhigh),
      Nat.le_trans hfinish.le hhigh⟩
    have hfloorq := hstart.span hq (Nat.le_trans hr.le hle.1)
    have hfloorr := hfloorq.span hr hle.1
    have hjump := hg.holds.level hstart (hfloorr.span hn hle.2)
    exact ((tame_of_tests hc hs hsize hjump htest).trans
      (Block.tame hc hsize hg hq.starts hfloorq hle.1 hscoped.1 hbody)).trans
      (Branches.tame hc hsize hg hr.starts hfloorr hhigh hscoped.2 hothers)
  | .loop test body, hscoped, h => by
    have hall := Stmt.span hc hs h
    rw [Stmt.At] at h
    rw [Stmt.scoped] at hscoped
    obtain ⟨q, r, htest, hbody, hjump⟩ := h
    have hq := span_of_tests hc hs htest
    have hr := Block.span hc hq.starts hbody
    have hlast := span_of_jumps hc hr.starts hjump
    have hle : r ≤ f.high := Nat.le_trans hlast.le hhigh
    have hfloorq := hstart.span hq (Nat.le_trans hr.le hle)
    have hfloorr := hfloorq.span hr hle
    have hend := hstart.span hall hhigh
    -- inside the loop, an exit goes to the end of the loop
    have hinside : Grounded is f true depth finish leave := ⟨hg.holds, fun _ => hend, hg.leave⟩
    exact ((tame_of_tests hc hs hsize (hg.holds.level hstart hend) htest).trans
      (Block.tame hc hsize hinside hq.starts hfloorq hle hscoped hbody)).trans
      (tame_of_jumps hc hr.starts hsize (hg.holds.level hfloorr hstart) hjump)
  | .choose value clauses, hscoped, h => by
    rw [Stmt.At] at h
    rw [Stmt.scoped] at hscoped
    obtain ⟨_, q, r, t, hpush, hmov, hclauses, hpop⟩ := h
    have hq := starts_of_has hc hs hpush fun h => by cases h
    have hr := span_of_has hc hq hmov (fun h => by cases h) rfl
    have ht := Clauses.span hc hr.starts hclauses
    -- the clauses have a floor of their own, and no loop around them reaches into it
    have hinside : Grounded is ⟨r, t, depthAt is r⟩ false (depth + 1) exit t :=
      ⟨ht.above, fun h => (nomatch h), fun _ => ⟨ht.le, Nat.le_refl t, ht.even⟩⟩
    exact (((tame_of_has hc hs hpush (proper_push start)).trans
      (tame_of_has hc hq hmov (proper_plain rfl rfl))).trans
      (Clauses.tame hc hsize hinside hr.starts ⟨Nat.le_refl r, ht.le, rfl⟩ (Nat.le_refl t) hscoped
        hclauses)).trans
      (tame_of_has hc ht.starts hpop (proper_pop t))

/-- The jumps of a block stay on its floor. -/
theorem Block.tame {f : Floor} {looped : Bool} {depth exit leave start finish : Nat}
    (hc : c.Closed (located 0 is)) (hsize : c.size < 2 ^ 63)
    (hg : Grounded is f looped depth exit leave) (hs : Starts is start)
    (hstart : f.Carries is start) (hhigh : finish ≤ f.high) :
    ∀ {a : Block}, a.scoped looped = true → a.At c depth start finish exit leave →
      Tame is start finish
  | .nil, _, h => by
    rw [Block.At] at h
    rw [h]
    exact tame_refl start
  | .cons a rest, hscoped, h => by
    rw [Block.At] at h
    rw [Block.scoped, Bool.and_eq_true] at hscoped
    obtain ⟨q, ha, hrest⟩ := h
    have hq := Stmt.span hc hs ha
    have hle : q ≤ f.high := Nat.le_trans (Block.span hc hq.starts hrest).le hhigh
    exact (Stmt.tame hc hsize hg hs hstart hle hscoped.1 ha).trans
      (Block.tame hc hsize hg hq.starts (hstart.span hq hle) hhigh hscoped.2 hrest)

/-- The jumps of further branches stay on their floor. -/
theorem Branches.tame {f : Floor} {looped : Bool} {depth exit leave start next finish : Nat}
    (hc : c.Closed (located 0 is)) (hsize : c.size < 2 ^ 63)
    (hg : Grounded is f looped depth exit leave) (hs : Starts is start)
    (hstart : f.Carries is start) (hhigh : finish ≤ f.high) :
    ∀ {a : Branches}, a.scoped looped = true → a.At c depth start next finish exit leave →
      Tame is start finish
  | .nil, _, h => by
    rw [Branches.At] at h
    rw [h.1]
    exact tame_refl finish
  | .otherwise body, hscoped, h => by
    obtain ⟨hspan, hrest⟩ := Branches.span hc hs h
    rw [Branches.At] at h
    rw [Branches.scoped] at hscoped
    have hnext := hstart.span hspan (Nat.le_trans hrest.le hhigh)
    have hjump := hg.holds.level hstart (hnext.span hrest hhigh)
    exact (tame_of_jumps hc hs hsize hjump h.1).trans
      (Block.tame hc hsize hg hspan.starts hnext hhigh hscoped h.2)
  | .also test body others, hscoped, h => by
    obtain ⟨hspan, hrest⟩ := Branches.span hc hs h
    rw [Branches.At] at h
    rw [Branches.scoped, Bool.and_eq_true] at hscoped
    obtain ⟨hjump, q, r, n, htest, hbody, hothers⟩ := h
    have hq := span_of_tests hc hspan.starts htest
    have hr := Block.span hc hq.starts hbody
    obtain ⟨hn, hfinish⟩ := Branches.span hc hr.starts hothers
    have hle : r ≤ f.high ∧ n ≤ f.high := ⟨Nat.le_trans hn.le (Nat.le_trans hfinish.le hhigh),
      Nat.le_trans hfinish.le hhigh⟩
    have hnext := hstart.span hspan (Nat.le_trans hrest.le hhigh)
    have hfloorq := hnext.span hq (Nat.le_trans hr.le hle.1)
    have hfloorr := hfloorq.span hr hle.1
    have hover := hg.holds.level hstart (hnext.span hrest hhigh)
    have htest' := hg.holds.level hnext (hfloorr.span hn hle.2)
    exact (((tame_of_jumps hc hs hsize hover hjump).trans
      (tame_of_tests hc hspan.starts hsize htest' htest)).trans
      (Block.tame hc hsize hg hq.starts hfloorq hle.1 hscoped.1 hbody)).trans
      (Branches.tame hc hsize hg hr.starts hfloorr hhigh hscoped.2 hothers)

/-- The jumps of clauses stay on their floor. -/
theorem Clauses.tame {f : Floor} {looped : Bool} {depth exit leave start finish : Nat}
    (hc : c.Closed (located 0 is)) (hsize : c.size < 2 ^ 63)
    (hg : Grounded is f looped depth exit leave) (hs : Starts is start)
    (hstart : f.Carries is start) (hhigh : finish ≤ f.high) :
    ∀ {a : Clauses}, a.scoped looped = true → a.At c depth start finish exit leave →
      Tame is start finish
  | .nil, _, h => by
    rw [Clauses.At] at h
    rw [h]
    exact tame_refl start
  | .case value body rest, hscoped, h => by
    rw [Clauses.At] at h
    rw [Clauses.scoped, Bool.and_eq_true] at hscoped
    obtain ⟨q, n, hcase, hbody, hrest⟩ := h
    have hq := span_of_matches hc hs hcase
    have hn := Block.span hc hq.starts hbody
    have hle : n ≤ f.high := Nat.le_trans (Clauses.span hc hn.starts hrest).le hhigh
    have hfloorq := hstart.span hq (Nat.le_trans hn.le hle)
    have hfloorn := hfloorq.span hn hle
    exact ((tame_of_matches hc hs hsize (hg.holds.level hstart hfloorn) hcase).trans
      (Block.tame hc hsize hg hq.starts hfloorq hle hscoped.1 hbody)).trans
      (Clauses.tame hc hsize hg hn.starts hfloorn hhigh hscoped.2 hrest)
  | .default body rest, hscoped, h => by
    rw [Clauses.At] at h
    rw [Clauses.scoped, Bool.and_eq_true] at hscoped
    obtain ⟨n, hbody, hrest⟩ := h
    have hn := Block.span hc hs hbody
    have hle : n ≤ f.high := Nat.le_trans (Clauses.span hc hn.starts hrest).le hhigh
    exact (Block.tame hc hsize hg hs hstart hle hscoped.1 hbody).trans
      (Clauses.tame hc hsize hg hn.starts (hstart.span hn hle) hhigh hscoped.2 hrest)

end

/-- A whole script, with the `stop` behind it, is level. -/
theorem Block.leveled {b : Block} {finish : Nat} (hc : c.Closed (located 0 is))
    (hsize : c.size < 2 ^ 63) (hscoped : b.scoped false = true)
    (hat : b.At c 0 0 finish 0 0) (hstop : c.Has finish .stop c.size) (hs : Starts is 0) :
    Instruction.Leveled is := by
  have hspan := Block.span hc hs hat
  have hg : Grounded is ⟨0, finish, 0⟩ false 0 0 0 := by
    refine ⟨?_, fun h => (nomatch h), fun h => (nomatch h)⟩
    intro a i ha hle hge
    rw [← Instruction.depthAt_zero is]
    exact hspan.above a i ha hle hge
  have htame := Block.tame hc hsize hg hs
    ⟨Nat.le_refl 0, Nat.zero_le finish, Instruction.depthAt_zero is⟩ (Nat.le_refl finish) hscoped hat
  -- behind the script stands nothing but the `stop`
  have hall : ∀ p i, (p, i) ∈ located 0 is → Proper is p i := by
    intro p i hp
    by_cases hlt : p < finish
    · exact htame p i hp (Nat.zero_le p) hlt
    · rcases eq_or_le_of_has hc hspan.starts hstop hp (by omega) with rfl | hge
      · rw [(Code.has_of_mem hc.reading hp).unique hstop]
        exact proper_plain rfl rfl
      · have hlt' := (Code.has_of_mem hc.reading hp).lt_size
        omega
  refine ⟨fun p i hp => (hall p i hp).jump, ?_⟩
  intro i hi
  rw [← Instruction.map_snd_located 0 is] at hi
  obtain ⟨⟨p, j⟩, hp, rfl⟩ := List.mem_map.1 hi
  exact (hall p j hp).saves

end Structured

end ScriptMachine
