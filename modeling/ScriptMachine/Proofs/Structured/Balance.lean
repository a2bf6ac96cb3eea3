/-
  ScriptMachine.Proofs.Structured.Balance

  The stack follows the nesting of choices.  Every line of a script stands inside a
  number of choices (`Stmt.outline`); while a script is compiled, this is the number of
  choices that are open, and what has been written so far raises the stack by it
  (`Climbs`).  So, when an accepted script runs and its exits stay inside their choices,
  the stack has one value for each choice around the line that is reached, and a choice
  that is left, by whatever way, has put the value under test back
  (`Block.choices_balanced`).
-/

import ScriptMachine.Proofs.Conformance
import ScriptMachine.Proofs.Structured.Leveling

namespace ScriptMachine

-- ============================================================================
-- Plans and the stack
-- ============================================================================

/-- By how much a planned instruction raises the stack. -/
def Planned.rise : Planned → Int
  | plain i => i.rise
  | _ => 0

theorem Planned.rise_resolved (f : Label → Int64) (p : Planned) :
    (p.resolved f).rise = p.rise := by
  cases p <;> rfl

namespace Plan

/-- By how much a plan raises the stack. -/
def rises (ps : Plan) : Int :=
  (ps.map Planned.rise).sum

@[simp] theorem rises_nil : rises [] = 0 := rfl

@[simp] theorem rises_cons (p : Planned) (ps : Plan) : rises (p :: ps) = p.rise + rises ps := rfl

@[simp] theorem rises_append (ps qs : Plan) : rises (ps ++ qs) = rises ps + rises qs := by
  simp [rises]

theorem rises_of_flat {ps : Plan} (h : ∀ p ∈ ps, p.rise = 0) : rises ps = 0 := by
  induction ps with
  | nil => rfl
  | cons p ps ih =>
    obtain ⟨hp, hps⟩ := List.forall_mem_cons.1 h
    rw [rises_cons, hp, ih hps, Int.add_zero]

theorem rises_resolved (f : Label → Int64) (ps : Plan) :
    Instruction.rises (resolved f ps) = rises ps := by
  induction ps with
  | nil => rfl
  | cons p ps ih =>
    rw [rises_cons, ← p.rise_resolved f, ← ih]
    rfl

theorem length_stream_resolved (f : Label → Int64) (ps : Plan) :
    (Instruction.stream (resolved f ps)).length = size ps := by
  rw [← bytes_eq_stream, length_bytes]

/-- The depth behind the first part of a plan. -/
theorem depthAt_size (f : Label → Int64) (ps qs : Plan) :
    Instruction.depthAt (resolved f (ps ++ qs)) (size ps) = rises ps := by
  rw [resolved, List.map_append, ← length_stream_resolved f ps, ← rises_resolved f ps]
  exact Instruction.depthAt_append _ _

theorem size_pos {ps : Plan} (h : ps ≠ []) : 0 < size ps := by
  cases ps with
  | nil => exact absurd rfl h
  | cons p ps =>
    have htwo := (p.resolved Label.placeholder).two_le_length_bytes
    have hsize : ((p.resolved Label.placeholder).bytes).length = p.size :=
      Planned.length_bytes Label.placeholder p
    rw [size_cons]
    omega

/-- An instruction of a plan stands behind a first part of the plan. -/
theorem split_of_mem_located {f : Label → Int64} {ps : Plan} {a : Nat} {i : Instruction}
    (h : (a, i) ∈ Instruction.located 0 (resolved f ps)) :
    ∃ qs rs, ps = qs ++ rs ∧ a = size qs := by
  obtain ⟨before, behind, heq, rfl⟩ := Instruction.split_of_mem_located h
  obtain ⟨qs, rs, rfl, rfl, _⟩ := List.map_eq_append_iff.1 heq
  exact ⟨qs, rs, rfl, by rw [Nat.zero_add]; exact length_stream_resolved f qs⟩

/-- A cut of a plan that lies in its middle part. -/
theorem split_middle {ps ms rest qs rs : Plan} (h : ps ++ ms ++ rest = qs ++ rs)
    (hlow : size ps < size qs) (hhigh : size qs < size (ps ++ ms)) :
    ∃ ks ls, qs = ps ++ ks ∧ ms = ks ++ ls ∧ ks ≠ [] ∧ ls ≠ [] := by
  rw [List.append_assoc] at h
  rcases List.append_eq_append_iff.1 h with ⟨ks, rfl, hks⟩ | ⟨as, rfl, _⟩
  · rcases List.append_eq_append_iff.1 hks with ⟨as, rfl, _⟩ | ⟨ls, rfl, _⟩
    · simp only [size_append] at hhigh
      omega
    · refine ⟨ks, ls, rfl, rfl, ?_, ?_⟩
      · rintro rfl
        rw [List.append_nil] at hlow
        omega
      · rintro rfl
        rw [List.append_nil] at hhigh
        omega
  · rw [size_append] at hlow
    omega

end Plan

namespace Structured

open Compile

-- comparing two states should never run the writing of the program
attribute [local irreducible] Program.write

-- ============================================================================
-- Lines and the choices around them
-- ============================================================================

mutual

/-- The lines of a statement that stands inside `d` choices, each with the number of
choices it stands in.  The line that opens a choice is still outside of it, and the line
that closes it still inside. -/
def Stmt.outline (d : Nat) : Stmt → List (List Char × Nat)
  | .declare x none => [(headed .var x.chars, d)]
  | .declare x (some change) => [(headed .var (x.chars ++ ' ' :: change.chars), d)]
  | .assign x change => [(x.chars ++ ' ' :: change.chars, d)]
  | .branch test body others =>
    (headed .ifThen test.chars, d) :: (body.outline d ++ others.outline d ++ [(alone .endIf, d)])
  | .loop test body =>
    (headed .whileDo test.chars, d) :: (body.outline d ++ [(alone .endWhile, d)])
  | .exit => [(alone .exitWhile, d)]
  | .choose value clauses =>
    (headed .choose value.chars, d) :: (clauses.outline (d + 1) ++ [(alone .endChoose, d + 1)])
  | .leave => [(alone .breakOut, d)]

/-- The lines of a block, likewise. -/
def Block.outline (d : Nat) : Block → List (List Char × Nat)
  | .nil => []
  | .cons s rest => s.outline d ++ rest.outline d

/-- The lines of further branches. -/
def Branches.outline (d : Nat) : Branches → List (List Char × Nat)
  | .nil => []
  | .otherwise body => (alone .otherwise, d) :: body.outline d
  | .also test body others =>
    (headed .elseIf test.chars, d) :: (body.outline d ++ others.outline d)

/-- The lines of clauses. -/
def Clauses.outline (d : Nat) : Clauses → List (List Char × Nat)
  | .nil => []
  | .case value body rest =>
    (headed .caseOf value.chars, d) :: (body.outline d ++ rest.outline d)
  | .default body rest => (alone .default, d) :: (body.outline d ++ rest.outline d)

end

/-- The lines of a script, and the end of the script as an empty line behind them. -/
def Block.rows (b : Block) : List (List Char × Nat) :=
  b.outline 0 ++ [([], 0)]

mutual

theorem Stmt.map_fst_outline (d : Nat) : ∀ a : Stmt, (a.outline d).map Prod.fst = a.lines
  | .declare x none | .declare x (some change) | .assign x change | .exit | .leave => rfl
  | .branch test body others => by
    rw [Stmt.outline, Stmt.lines, List.map_cons, List.map_append, List.map_append,
      Block.map_fst_outline d body, Branches.map_fst_outline d others]
    rfl
  | .loop test body => by
    rw [Stmt.outline, Stmt.lines, List.map_cons, List.map_append, Block.map_fst_outline d body]
    rfl
  | .choose value clauses => by
    rw [Stmt.outline, Stmt.lines, List.map_cons, List.map_append,
      Clauses.map_fst_outline (d + 1) clauses]
    rfl

theorem Block.map_fst_outline (d : Nat) : ∀ a : Block, (a.outline d).map Prod.fst = a.lines
  | .nil => rfl
  | .cons s rest => by
    rw [Block.outline, Block.lines, List.map_append, Stmt.map_fst_outline d s,
      Block.map_fst_outline d rest]

theorem Branches.map_fst_outline (d : Nat) : ∀ a : Branches, (a.outline d).map Prod.fst = a.lines
  | .nil => rfl
  | .otherwise body => by
    rw [Branches.outline, Branches.lines, List.map_cons, Block.map_fst_outline d body]
  | .also test body others => by
    rw [Branches.outline, Branches.lines, List.map_cons, List.map_append,
      Block.map_fst_outline d body, Branches.map_fst_outline d others]

theorem Clauses.map_fst_outline (d : Nat) : ∀ a : Clauses, (a.outline d).map Prod.fst = a.lines
  | .nil => rfl
  | .case value body rest => by
    rw [Clauses.outline, Clauses.lines, List.map_cons, List.map_append,
      Block.map_fst_outline d body, Clauses.map_fst_outline d rest]
  | .default body rest => by
    rw [Clauses.outline, Clauses.lines, List.map_cons, List.map_append,
      Block.map_fst_outline d body, Clauses.map_fst_outline d rest]

end

mutual

/-- No line of a statement stands in fewer choices than the statement. -/
theorem Stmt.le_outline (d : Nat) : ∀ a : Stmt, ∀ row ∈ a.outline d, d ≤ row.2
  | .declare x none | .declare x (some change) | .assign x change | .exit | .leave => by
    intro row hrow
    exact Nat.le_of_eq (List.mem_singleton.1 hrow ▸ rfl)
  | .branch test body others => by
    rw [Stmt.outline, List.forall_mem_cons, List.forall_mem_append, List.forall_mem_append,
      List.forall_mem_singleton]
    exact ⟨Nat.le_refl d, ⟨Block.le_outline d body, Branches.le_outline d others⟩, Nat.le_refl d⟩
  | .loop test body => by
    rw [Stmt.outline, List.forall_mem_cons, List.forall_mem_append, List.forall_mem_singleton]
    exact ⟨Nat.le_refl d, Block.le_outline d body, Nat.le_refl d⟩
  | .choose value clauses => by
    rw [Stmt.outline, List.forall_mem_cons, List.forall_mem_append, List.forall_mem_singleton]
    refine ⟨Nat.le_refl d, fun row hrow => ?_, Nat.le_succ d⟩
    exact Nat.le_of_succ_le (Clauses.le_outline (d + 1) clauses row hrow)

theorem Block.le_outline (d : Nat) : ∀ a : Block, ∀ row ∈ a.outline d, d ≤ row.2
  | .nil => by
    intro row hrow
    cases hrow
  | .cons s rest => by
    rw [Block.outline, List.forall_mem_append]
    exact ⟨Stmt.le_outline d s, Block.le_outline d rest⟩

theorem Branches.le_outline (d : Nat) : ∀ a : Branches, ∀ row ∈ a.outline d, d ≤ row.2
  | .nil => by
    intro row hrow
    cases hrow
  | .otherwise body => by
    rw [Branches.outline, List.forall_mem_cons]
    exact ⟨Nat.le_refl d, Block.le_outline d body⟩
  | .also test body others => by
    rw [Branches.outline, List.forall_mem_cons, List.forall_mem_append]
    exact ⟨Nat.le_refl d, Block.le_outline d body, Branches.le_outline d others⟩

theorem Clauses.le_outline (d : Nat) : ∀ a : Clauses, ∀ row ∈ a.outline d, d ≤ row.2
  | .nil => by
    intro row hrow
    cases hrow
  | .case value body rest => by
    rw [Clauses.outline, List.forall_mem_cons, List.forall_mem_append]
    exact ⟨Nat.le_refl d, Block.le_outline d body, Clauses.le_outline d rest⟩
  | .default body rest => by
    rw [Clauses.outline, List.forall_mem_cons, List.forall_mem_append]
    exact ⟨Nat.le_refl d, Block.le_outline d body, Clauses.le_outline d rest⟩

end

example : choiceOfOne.rows.map Prod.snd = [0, 1, 1, 1, 0] := rfl

-- ============================================================================
-- One line
-- ============================================================================

/-- One line took the compiler from `c` to `c'` and wrote the plan: the plan raises the
stack by the choices that the line opened or closed, and between two instructions of the
line the stack is not lower than at its ends. -/
structure Shift (c : Compiler) (ps : Plan) (c' : Compiler) : Prop where
  writes : c.Writes ps c'
  usual : Usual c'
  consistent : c'.blocks.Consistent
  height : (c'.switchEnds.size : Int) = c.switchEnds.size + Plan.rises ps
  inner : ∀ qs rs, ps = qs ++ rs → qs ≠ [] → rs ≠ [] →
    0 ≤ Plan.rises qs ∧ Plan.rises ps ≤ Plan.rises qs

/-- The line raises the stack by `k`. -/
def Shifts (c : Compiler) (k : Int) (c' : Compiler) : Prop :=
  ∃ ps, Shift c ps c' ∧ Plan.rises ps = k

section
variable {c c' : Compiler} {ps : Plan}

/-- A line that neither opens nor closes a choice. -/
theorem shifts_flat (hw : c.Writes ps c') (hflat : ∀ p ∈ ps, p.rise = 0) (hc : Usual c')
    (hb : c'.blocks.Consistent) (hends : c'.switchEnds.size = c.switchEnds.size) :
    Shifts c 0 c' := by
  have hzero := Plan.rises_of_flat hflat
  refine ⟨ps, ⟨hw, hc, hb, by rw [hends, hzero, Int.add_zero], ?_⟩, hzero⟩
  rintro qs rs rfl _ _
  have hfront := Plan.rises_of_flat fun p hp => hflat p (List.mem_append_left rs hp)
  omega

/-- A line that continues inside the same structures. -/
theorem Continues.shifts (h : Continues c ps c') (hflat : ∀ p ∈ ps, p.rise = 0) :
    Shifts c 0 c' :=
  shifts_flat h.writes hflat h.usual h.consistent (by rw [h.switchEnds])

theorem flat_singleton {x : Planned} (hx : x.rise = 0) : ∀ p ∈ [x], p.rise = 0 := by
  intro p hp
  rw [List.mem_singleton.1 hp]
  exact hx

variable (hc : Usual c) (hb : c.blocks.Consistent)
include hc hb

theorem shifts_assign {x : Name} {change : Change}
    (h : line (x.chars ++ ' ' :: change.chars) c = .ok () c') : Shifts c 0 c' := by
  obtain ⟨hx, hchange, rfl⟩ := (line_assign_eq_ok_iff hc x change).1 h
  exact shifts_flat (writes_plain (Change.legible hchange hx.2))
    (flat_singleton (change.rise_instruction x).2) (hc.of_sameNames ⟨rfl, rfl⟩) hb rfl

theorem shifts_declare {x : Name} (h : line (headed .var x.chars) c = .ok () c') :
    Shifts c 0 c' := by
  obtain ⟨_, rfl⟩ := (line_declare_eq_ok_iff hc x).1 h
  exact shifts_flat (.none rfl rfl) (fun p hp => (nomatch hp)) (hc.declared x) hb rfl

theorem shifts_declareAssign {x : Name} {change : Change}
    (h : line (headed .var (x.chars ++ ' ' :: change.chars)) c = .ok () c') : Shifts c 0 c' := by
  obtain ⟨_, hfits, hchange, rfl⟩ := (line_declareAssign_eq_ok_iff hc x change).1 h
  have hdeclared : c.Writes [] (declared c x) := .none rfl rfl
  exact shifts_flat (hdeclared.trans (writes_plain (Change.legible hchange hfits)))
    (flat_singleton (change.rise_instruction x).2) ((hc.declared x).of_sameNames ⟨rfl, rfl⟩) hb rfl

theorem shifts_exit (h : line (alone .exitWhile) c = .ok () c') : Shifts c 0 c' := by
  obtain ⟨_, l, _, rfl⟩ := (line_exit_eq_ok_iff hc).1 h
  exact shifts_flat (Compiler.writes_withJump (p := .goto l) rfl trivial) (flat_singleton rfl)
    (hc.withJump _ _) hb rfl

theorem shifts_break (h : line (alone .breakOut) c = .ok () c') : Shifts c 0 c' := by
  obtain ⟨_, l, _, rfl⟩ := (line_break_eq_ok_iff hc).1 h
  exact shifts_flat (writes_withCase (Compiler.writes_withJump (p := .goto l) rfl trivial) _)
    (flat_singleton rfl) ((hc.withJump _ _).withCase _) hb rfl

theorem shifts_if {e : Expr} (h : line (headed .ifThen e.chars) c = .ok () c') :
    Shifts c 0 c' := by
  obtain ⟨hc', hb'⟩ := if_line hc hb h
  obtain ⟨_, _, _, he, rfl⟩ := (line_if_eq_ok_iff hc e).1 h
  exact shifts_flat (writes_ifState (Expr.legible he)) (flat_singleton rfl) hc' hb' rfl

theorem shifts_elseIf {e : Expr} (h : line (headed .elseIf e.chars) c = .ok () c') :
    Shifts c 0 c' := by
  obtain ⟨_, _, o, rest, ho, hs, _, he, rfl⟩ := (line_elseIf_eq_ok_iff hc e).1 h
  refine ((continues_branchState hc hb .elseIf ho hs).trans
    (continues_elseIf hc hb ho hs he)).shifts ?_
  rw [List.forall_mem_append]
  exact ⟨flat_singleton rfl, flat_singleton rfl⟩

theorem shifts_otherwise (h : line (alone .otherwise) c = .ok () c') : Shifts c 0 c' := by
  obtain ⟨_, _, o, rest, ho, hs, rfl⟩ := (line_otherwise_eq_ok_iff hc).1 h
  exact (continues_branchState hc hb .otherwise ho hs).shifts (flat_singleton rfl)

theorem shifts_endIf (h : line (alone .endIf) c = .ok () c') : Shifts c 0 c' := by
  obtain ⟨_, _, o, rest, ho, hs, rfl⟩ := (line_endIf_eq_ok_iff hc).1 h
  exact shifts_flat (.none rfl rfl) (fun p hp => (nomatch hp)) (hc.of_sameNames ⟨rfl, rfl⟩)
    (Compiler.blockLeft_blocks hb .endIf ho hs).1 rfl

theorem shifts_while {e : Expr} (h : line (headed .whileDo e.chars) c = .ok () c') :
    Shifts c 0 c' := by
  obtain ⟨hc', hb'⟩ := while_line hc hb h
  obtain ⟨_, _, _, _, he, rfl⟩ := (line_while_eq_ok_iff hc e).1 h
  exact shifts_flat (writes_whileState (Expr.legible he)) (flat_singleton rfl) hc' hb' rfl

theorem shifts_endWhile (h : line (alone .endWhile) c = .ok () c') : Shifts c 0 c' := by
  obtain ⟨_, _, o, rest, l, ho, hs, _, rfl⟩ := (line_endWhile_eq_ok_iff hc).1 h
  have hw := Compiler.writes_withJump (c := c) (p := .goto ⟨o.number, .start⟩) rfl trivial
  exact shifts_flat (hw.same rfl rfl) (flat_singleton rfl) (hc.of_sameNames ⟨rfl, rfl⟩)
    (Compiler.blockLeft_blocks (c := c.withJump [.code .goto] ⟨o.number, .start⟩) hb .endWhile
      ho hs).1 rfl

theorem shifts_case {e : Expr} (h : line (headed .caseOf e.chars) c = .ok () c') :
    Shifts c 0 c' := by
  obtain ⟨_, _, o, rest, ho, hs, _, he, rfl⟩ := (line_case_eq_ok_iff hc e).1 h
  exact (continues_case hc hb ho hs he).shifts (flat_singleton rfl)

theorem shifts_default (h : line (alone .default) c = .ok () c') : Shifts c 0 c' := by
  obtain ⟨_, _, o, rest, ho, hs, rfl⟩ := (line_default_eq_ok_iff hc).1 h
  exact (continues_default hc hb ho hs).shifts fun p hp => (nomatch hp)

/-- The line that opens a choice saves the value under test first. -/
theorem shifts_choose {e : Expr} (h : line (headed .choose e.chars) c = .ok () c') :
    Shifts c 1 c' := by
  obtain ⟨hc', hb'⟩ := choose_line hc hb h
  obtain ⟨symbols, counts, depth, _, _, _, he, rfl⟩ := of_line_choose_eq_ok hc h
  refine ⟨_, ⟨writes_chooseEntered symbols counts depth (Expr.legible he), hc', hb', ?_, ?_⟩, rfl⟩
  · show ((c.switchEnds.items.push _).size : Int) = c.switchEnds.size + 1
    rw [Array.size_push]
    rfl
  · -- the only place inside the line is behind its `push`
    intro qs rs heq hqs hrs
    match qs, heq with
    | [], _ => exact absurd rfl hqs
    | [x], heq =>
      rw [List.singleton_append] at heq
      cases heq
      exact ⟨by decide, Int.le_refl _⟩
    | x :: y :: ys, heq =>
      simp only [List.cons_append, List.cons.injEq, List.nil_eq_append_iff] at heq
      exact absurd heq.2.2.2 hrs

/-- The line that closes a choice restores it. -/
theorem shifts_endChoose (h : line (alone .endChoose) c = .ok () c') : Shifts c (-1) c' := by
  obtain ⟨_, _, o, rest, l, ho, hs, htop, _, rfl⟩ := (line_endChoose_eq_ok_iff hc).1 h
  have hsame : c.Writes [] { c.blockLeft .endChoose o rest with
      switchEnds := { c.switchEnds with items := c.switchEnds.items.pop } } := .none rfl rfl
  have hw := (hsame.trans (writes_plain (i := .pop caseName) ⟨rfl, rfl⟩)).same
    (e := chooseLeft { c.blockLeft .endChoose o rest with
      switchEnds := { c.switchEnds with items := c.switchEnds.items.pop } }) rfl rfl
  refine ⟨_, ⟨hw, hc.of_sameNames ⟨rfl, rfl⟩,
    (Compiler.blockLeft_blocks hb .endChoose ho hs).1, ?_, ?_⟩, rfl⟩
  · show ((c.switchEnds.items.pop).size : Int) = c.switchEnds.items.size + -1
    obtain ⟨below, hbelow⟩ := Array.back?_eq_some_iff.1 htop
    rw [hbelow, Array.pop_push, Array.size_push]
    omega
  · intro qs rs heq hqs hrs
    match qs, heq with
    | [], _ => exact absurd rfl hqs
    | x :: xs, heq =>
      simp only [List.nil_append, List.cons_append, List.cons.injEq, List.nil_eq_append_iff] at heq
      exact absurd heq.2.2 hrs

end

-- ============================================================================
-- Lines in order
-- ============================================================================

/-- The lines took the compiler from `c` to `c'` and wrote the plan, and each of them
stands in as many choices as were open when it was reached. -/
inductive Climbs : Compiler → List (List Char × Nat) → Plan → Compiler → Prop where
  | nil (c : Compiler) : Climbs c [] [] c
  | cons {c d c' : Compiler} {text : List Char} {rows : List (List Char × Nat)} {ps qs : Plan}
    (hline : line text c = .ok () d) (hshift : Shift c ps d) (hrest : Climbs d rows qs c') :
    Climbs c ((text, c.switchEnds.size) :: rows) (ps ++ qs) c'

section
variable {c d c' : Compiler} {rows rows' : List (List Char × Nat)} {ps qs : Plan}

theorem Climbs.trans (h : Climbs c rows ps d) (k : Climbs d rows' qs c') :
    Climbs c (rows ++ rows') (ps ++ qs) c' := by
  induction h with
  | nil c => exact k
  | cons hline hshift _ ih =>
    rw [List.append_assoc]
    exact .cons hline hshift (ih k)

/-- Lines in two parts. -/
theorem Climbs.split (h : Climbs c (rows ++ rows') ps c') :
    ∃ d qs rs, ps = qs ++ rs ∧ Climbs c rows qs d ∧ Climbs d rows' rs c' := by
  induction rows generalizing c ps with
  | nil => exact ⟨c, [], ps, rfl, .nil c, h⟩
  | cons row rows ih =>
    cases h with
    | cons hline hshift hrest =>
      obtain ⟨d, qs, rs, rfl, hqs, hrs⟩ := ih hrest
      exact ⟨d, _, rs, (List.append_assoc _ _ _).symm, .cons hline hshift hqs, hrs⟩

theorem Climbs.takes (h : Climbs c rows ps c') : Takes c (rows.map Prod.fst) c' := by
  induction h with
  | nil c => exact .nil c
  | cons hline _ _ ih => exact .cons hline ih

theorem Climbs.writes (h : Climbs c rows ps c') : c.Writes ps c' := by
  induction h with
  | nil c => exact .refl c
  | cons _ hshift _ ih => exact hshift.writes.trans ih

/-- What the lines write raises the stack by the choices they opened. -/
theorem Climbs.height (h : Climbs c rows ps c') :
    (c'.switchEnds.size : Int) = c.switchEnds.size + Plan.rises ps := by
  induction h with
  | nil c => exact (Int.add_zero _).symm
  | cons _ hshift _ ih =>
    rw [ih, hshift.height, Plan.rises_append, Int.add_assoc]

/-- Lines that all stand inside `n` choices write code that nowhere lies lower. -/
theorem Climbs.above {n : Nat} (h : Climbs c rows ps c') (hrows : ∀ row ∈ rows, n ≤ row.2) :
    ∀ qs rs, ps = qs ++ rs → rs ≠ [] → (n : Int) ≤ c.switchEnds.size + Plan.rises qs := by
  induction h with
  | nil c =>
    intro qs rs heq hrs
    exact absurd (List.append_eq_nil_iff.1 heq.symm).2 hrs
  | @cons c d c' text rows ps ps' hline hshift hrest ih =>
    intro qs rs heq hrs
    obtain ⟨hhead, htail⟩ := List.forall_mem_cons.1 hrows
    have hheight := hshift.height
    rcases List.append_eq_append_iff.1 heq with ⟨as, rfl, hps'⟩ | ⟨bs, hps, rfl⟩
    · -- behind the first line
      have hrest' := ih htail as rs hps' hrs
      rw [Plan.rises_append]
      omega
    · -- inside the first line, or at one of its ends
      by_cases hqs : qs = []
      · rw [hqs, Plan.rises_nil]
        omega
      · by_cases hbs : bs = []
        · rw [hbs, List.append_nil] at hps
          rw [← hps]
          have hrest' := ih htail [] ps' rfl (by simpa [hbs] using hrs)
          rw [Plan.rises_nil] at hrest'
          omega
        · have hinner := hshift.inner qs bs hps hqs hbs
          omega

end

/-- The compiler stands inside `d` choices. -/
structure Stands (c : Compiler) (d : Nat) : Prop where
  usual : Usual c
  consistent : c.blocks.Consistent
  choices : c.switchEnds.size = d

/-- The lines take the compiler to a state inside `d` choices. -/
def Reaches (c : Compiler) (rows : List (List Char × Nat)) (c' : Compiler) (d : Nat) : Prop :=
  (∃ ps, Climbs c rows ps c') ∧ Stands c' d

theorem Reaches.trans {c c₁ c' : Compiler} {rows rows' : List (List Char × Nat)} {d d' : Nat}
    (h : Reaches c rows c₁ d) (k : Reaches c₁ rows' c' d') : Reaches c (rows ++ rows') c' d' := by
  obtain ⟨⟨ps, hps⟩, _⟩ := h
  obtain ⟨⟨qs, hqs⟩, hc'⟩ := k
  exact ⟨⟨_, hps.trans hqs⟩, hc'⟩

/-- One line. -/
theorem Stands.line {c c' : Compiler} {d d' : Nat} {k : Int} {text : List Char} (hc : Stands c d)
    (hline : Compile.line text c = .ok () c') (h : Shifts c k c') (hd : (d' : Int) = d + k) :
    Reaches c [(text, d)] c' d' := by
  obtain ⟨ps, hshift, rfl⟩ := h
  have hheight := hshift.height
  obtain ⟨_, _, rfl⟩ := hc
  refine ⟨⟨ps ++ [], .cons hline hshift (.nil c')⟩, hshift.usual, hshift.consistent, ?_⟩
  omega

section
variable {c c' : Compiler} {d : Nat}

theorem Stands.flat {text : List Char} (hc : Stands c d) (hline : Compile.line text c = .ok () c')
    (h : Shifts c 0 c') : Reaches c [(text, d)] c' d :=
  hc.line hline h (Int.add_zero _).symm

end

mutual

/-- The lines of a statement that is accepted. -/
theorem Stmt.reaches {c c' : Compiler} {d : Nat} (hc : Stands c d) :
    ∀ {a : Stmt}, Takes c a.lines c' → Reaches c (a.outline d) c' d
  | .declare x none, h => by
    have h := takes_singleton_iff.1 h
    exact hc.flat h (shifts_declare hc.usual hc.consistent h)
  | .declare x (some change), h => by
    have h := takes_singleton_iff.1 h
    exact hc.flat h (shifts_declareAssign hc.usual hc.consistent h)
  | .assign x change, h => by
    have h := takes_singleton_iff.1 h
    exact hc.flat h (shifts_assign hc.usual hc.consistent h)
  | .exit, h => by
    have h := takes_singleton_iff.1 h
    exact hc.flat h (shifts_exit hc.usual hc.consistent h)
  | .leave, h => by
    have h := takes_singleton_iff.1 h
    exact hc.flat h (shifts_break hc.usual hc.consistent h)
  | .branch test body others, h => by
    obtain ⟨c₁, hif, h⟩ := takes_cons_iff.1 h
    obtain ⟨c₃, h, hend⟩ := takes_append_iff.1 h
    obtain ⟨c₂, hbody, hothers⟩ := takes_append_iff.1 h
    have hend := takes_singleton_iff.1 hend
    have h₁ := hc.flat hif (shifts_if hc.usual hc.consistent hif)
    have h₂ := Block.reaches h₁.2 hbody
    have h₃ := Branches.reaches h₂.2 hothers
    have h₄ := h₃.2.flat hend (shifts_endIf h₃.2.usual h₃.2.consistent hend)
    rw [Stmt.outline]
    exact h₁.trans ((h₂.trans h₃).trans h₄)
  | .loop test body, h => by
    obtain ⟨c₁, hwhile, h⟩ := takes_cons_iff.1 h
    obtain ⟨c₂, hbody, hend⟩ := takes_append_iff.1 h
    have hend := takes_singleton_iff.1 hend
    have h₁ := hc.flat hwhile (shifts_while hc.usual hc.consistent hwhile)
    have h₂ := Block.reaches h₁.2 hbody
    have h₃ := h₂.2.flat hend (shifts_endWhile h₂.2.usual h₂.2.consistent hend)
    rw [Stmt.outline]
    exact h₁.trans (h₂.trans h₃)
  | .choose value clauses, h => by
    obtain ⟨c₁, hchoose, h⟩ := takes_cons_iff.1 h
    obtain ⟨c₂, hclauses, hend⟩ := takes_append_iff.1 h
    have hend := takes_singleton_iff.1 hend
    -- one choice more is open until the last line
    have h₁ : Reaches c [(headed .choose value.chars, d)] c₁ (d + 1) :=
      hc.line hchoose (shifts_choose hc.usual hc.consistent hchoose) (Int.natCast_add d 1)
    have h₂ := Clauses.reaches h₁.2 hclauses
    have h₃ : Reaches c₂ [(alone .endChoose, d + 1)] c' d :=
      h₂.2.line hend (shifts_endChoose h₂.2.usual h₂.2.consistent hend) (by omega)
    rw [Stmt.outline]
    exact h₁.trans (h₂.trans h₃)

/-- The lines of a block that is accepted. -/
theorem Block.reaches {c c' : Compiler} {d : Nat} (hc : Stands c d) :
    ∀ {a : Block}, Takes c a.lines c' → Reaches c (a.outline d) c' d
  | .nil, h => by
    obtain rfl := takes_nil_iff.1 h
    exact ⟨⟨[], .nil c'⟩, hc⟩
  | .cons a rest, h => by
    obtain ⟨c₁, ha, hrest⟩ := takes_append_iff.1 h
    have h₁ := Stmt.reaches hc ha
    rw [Block.outline]
    exact h₁.trans (Block.reaches h₁.2 hrest)

/-- The lines of further branches that are accepted. -/
theorem Branches.reaches {c c' : Compiler} {d : Nat} (hc : Stands c d) :
    ∀ {a : Branches}, Takes c a.lines c' → Reaches c (a.outline d) c' d
  | .nil, h => by
    obtain rfl := takes_nil_iff.1 h
    exact ⟨⟨[], .nil c'⟩, hc⟩
  | .otherwise body, h => by
    obtain ⟨c₁, helse, hbody⟩ := takes_cons_iff.1 h
    have h₁ := hc.flat helse (shifts_otherwise hc.usual hc.consistent helse)
    rw [Branches.outline]
    exact h₁.trans (Block.reaches h₁.2 hbody)
  | .also test body others, h => by
    obtain ⟨c₁, hif, h⟩ := takes_cons_iff.1 h
    obtain ⟨c₂, hbody, hothers⟩ := takes_append_iff.1 h
    have h₁ := hc.flat hif (shifts_elseIf hc.usual hc.consistent hif)
    have h₂ := Block.reaches h₁.2 hbody
    rw [Branches.outline]
    exact h₁.trans (h₂.trans (Branches.reaches h₂.2 hothers))

/-- The lines of clauses that are accepted. -/
theorem Clauses.reaches {c c' : Compiler} {d : Nat} (hc : Stands c d) :
    ∀ {a : Clauses}, Takes c a.lines c' → Reaches c (a.outline d) c' d
  | .nil, h => by
    obtain rfl := takes_nil_iff.1 h
    exact ⟨⟨[], .nil c'⟩, hc⟩
  | .case value body rest, h => by
    obtain ⟨c₁, hcase, h⟩ := takes_cons_iff.1 h
    obtain ⟨c₂, hbody, hrest⟩ := takes_append_iff.1 h
    have h₁ := hc.flat hcase (shifts_case hc.usual hc.consistent hcase)
    have h₂ := Block.reaches h₁.2 hbody
    rw [Clauses.outline]
    exact h₁.trans (h₂.trans (Clauses.reaches h₂.2 hrest))
  | .default body rest, h => by
    obtain ⟨c₁, hdefault, h⟩ := takes_cons_iff.1 h
    obtain ⟨c₂, hbody, hrest⟩ := takes_append_iff.1 h
    have h₁ := hc.flat hdefault (shifts_default hc.usual hc.consistent hdefault)
    have h₂ := Block.reaches h₁.2 hbody
    rw [Clauses.outline]
    exact h₁.trans (h₂.trans (Clauses.reaches h₂.2 hrest))

end

-- ============================================================================
-- Choices in the stream
-- ============================================================================

section
variable {c c' : Compiler} {rows : List (List Char × Nat)} {ps : Plan}

theorem Climbs.stands {d : Nat} (h : Climbs c rows ps c') (hc : Stands c d) :
    Stands c' c'.switchEnds.size := by
  induction h generalizing d with
  | nil c => exact ⟨hc.usual, hc.consistent, rfl⟩
  | cons _ hshift _ ih => exact ih ⟨hshift.usual, hshift.consistent, rfl⟩

theorem Climbs.le_choices {n : Nat} (h : Climbs c rows ps c') (hne : rows ≠ [])
    (hrows : ∀ row ∈ rows, n ≤ row.2) : n ≤ c.switchEnds.size := by
  cases h with
  | nil => exact absurd rfl hne
  | cons => exact hrows _ List.mem_cons_self

theorem stands_fresh (file : String) : Stands (fresh file) 0 :=
  ⟨usual_fresh file, consistent_fresh file, rfl⟩

/-- The lines of a fresh run: how much they wrote, and how deep the stack is behind
it. -/
theorem Climbs.of_fresh {file : String} (h : Climbs (fresh file) rows ps c) :
    c.program.position = ps.size ∧ Plan.rises ps = c.switchEnds.size := by
  have hposition := h.writes.position
  have hheight := h.height
  have hstart : (fresh file).program.position = 0 := rfl
  have hnone : (fresh file).switchEnds.size = 0 := rfl
  rw [hstart, Nat.zero_add] at hposition
  rw [hnone] at hheight
  exact ⟨hposition, by omega⟩

end

/-- Where a plan is cut, an instruction starts, at the depth that the first part leads
to. -/
theorem starts_cut {plan qs rs : Plan} (f : Label → Int64) (h : plan = qs ++ rs) :
    Starts (Plan.resolved f (plan ++ [.plain .stop])) qs.size ∧
      Instruction.depthAt (Plan.resolved f (plan ++ [.plain .stop])) qs.size = Plan.rises qs := by
  subst h
  refine ⟨Plan.mem_located f qs rs, ?_⟩
  rw [List.append_assoc]
  exact Plan.depthAt_size f qs _

/-- Where a line opens a choice and all lines behind it stand in that choice, what they wrote
is above the ground everywhere between its ends. -/
theorem Climbs.rises_pos {c e c' : Compiler} {rows : List (List Char × Nat)}
    {ms ls ns ns' : Plan} (hrest : Climbs e rows ls c') (hshift : Shift c ms e)
    (hopen : c.switchEnds.size + 1 ≤ e.switchEnds.size)
    (hdeep : ∀ row ∈ rows, c.switchEnds.size + 1 ≤ row.2) (hcut : ms ++ ls = ns ++ ns')
    (hne : ns ≠ []) (hne' : ns' ≠ []) : 0 < Plan.rises ns := by
  have hheight := hshift.height
  -- the cut lies inside the first line, at its end, or behind it
  rcases List.append_eq_append_iff.1 hcut with ⟨as, rfl, has⟩ | ⟨bs, hbs, rfl⟩
  · have habove := hrest.above hdeep as ns' has hne'
    rw [Plan.rises_append]
    omega
  · by_cases hempty : bs = []
    · rw [hempty, List.append_nil] at hbs
      rw [← hbs]
      omega
    · have hinner := hshift.inner ns bs hbs hne hempty
      omega

/-- The code of a choice lies deeper than its two ends. -/
theorem Climbs.basin {file : String} {before : List (List Char × Nat)} {value : Expr}
    {clauses : Clauses} {d : Nat} {c₁ c₂ : Compiler} {plan ps qs rs : Plan}
    (h₁ : Climbs (fresh file) before ps c₁)
    (h₂ : Climbs c₁ ((Stmt.choose value clauses).outline d) qs c₂) (hplan : plan = ps ++ qs ++ rs)
    (f : Label → Int64) :
    Instruction.Basin (Plan.resolved f (plan ++ [.plain .stop])) c₁.program.position
      c₂.program.position := by
  obtain ⟨hstart, hdepth⟩ := h₁.of_fresh
  obtain ⟨hfinish, hdepth'⟩ := (h₁.trans h₂).of_fresh
  -- the choice is closed at its end
  have hc₁ := h₁.stands (stands_fresh file)
  have htakes := h₂.takes
  rw [Stmt.map_fst_outline] at htakes
  have heven : c₂.switchEnds.size = c₁.switchEnds.size := (Stmt.reaches hc₁ htakes).2.choices
  obtain ⟨hsa, hda⟩ := starts_cut f (hplan.trans (List.append_assoc ps qs rs))
  obtain ⟨hsz, hdz⟩ := starts_cut f hplan
  rw [hstart, hfinish]
  rw [Stmt.outline] at h₂
  cases h₂ with
  | @cons _ e _ _ _ ms ls _ hshift hrest =>
    -- behind its first line one choice more is open
    have hdeep : ∀ row ∈ clauses.outline (c₁.switchEnds.size + 1) ++
        [(alone .endChoose, c₁.switchEnds.size + 1)], c₁.switchEnds.size + 1 ≤ row.2 := by
      rw [List.forall_mem_append, List.forall_mem_singleton]
      exact ⟨clauses.le_outline _, Nat.le_refl _⟩
    have hopen := hrest.le_choices (by simp) hdeep
    have hheight := hshift.height
    have hheight' := hrest.height
    have hms : ms ≠ [] := by
      rintro rfl
      rw [Plan.rises_nil] at hheight
      omega
    have hls : ls ≠ [] := by
      rintro rfl
      rw [Plan.rises_nil] at hheight'
      omega
    have hmid : plan = (ps ++ ms) ++ (ls ++ rs) := by
      rw [hplan]
      simp only [List.append_assoc]
    obtain ⟨⟨j, hj⟩, _⟩ := starts_cut f hmid
    have hposm := Plan.size_pos hms
    have hposl := Plan.size_pos hls
    refine ⟨hsa, ⟨_, j, hj, ?_, ?_⟩, hsz, by rw [hda, hdz, hdepth, hdepth', heven], ?_⟩
    · rw [Plan.size_append]
      omega
    · simp only [Plan.size_append]
      omega
    · intro b i hb hab hbz
      obtain ⟨ks, ks', hcut, rfl⟩ := Plan.split_of_mem_located hb
      rw [hplan, List.append_assoc _ rs] at hcut
      obtain ⟨ns, ns', rfl, hns, hne, hne'⟩ := Plan.split_middle hcut hab hbz
      have hdb := Plan.depthAt_size f (ps ++ ns) ks'
      rw [← hcut, ← List.append_assoc, ← hplan] at hdb
      rw [hdb, hda, Plan.rises_append]
      have hrises := hrest.rises_pos hshift hopen hdeep hns hne hne'
      omega

-- ============================================================================
-- Runs of a script
-- ============================================================================

/-- The end of a script is a line that writes nothing. -/
theorem Stands.last {c : Compiler} {d : Nat} (hc : Stands c d) : Reaches c [([], d)] c d := by
  have hline : Compile.line [] c = .ok () c := rfl
  exact hc.flat hline
    (shifts_flat (.refl c) (fun p hp => (nomatch hp)) hc.usual hc.consistent rfl)

/-- A script that is compiled: its rows wrote a plan, and the stream is the plan with a
`stop` behind it. -/
theorem Block.climbs_of_compile {b : Block} {file : String} {p : Program}
    (hp : compile file b.source = .ok p) (hsize : p.code.size < 2 ^ 63) :
    ∃ c plan f, Climbs (fresh file) b.rows plan c ∧
      p.code.Closed (Instruction.located 0 (Plan.resolved f (plan ++ [.plain .stop]))) := by
  obtain ⟨c, c', htakes, hfinish⟩ := compile_eq_ok_iff.1 hp
  have hload : [Feed.script file b.source].forM Feed.load (Compiler.ofConfig {}) = .ok () c :=
    bind_eq_ok_iff.2 ⟨(), c, script_eq_ok_iff.2 htakes, rfl⟩
  obtain ⟨is, hwf, _⟩ := finished_calls_allowed
    (bind_eq_ok_iff.2 ⟨(), c, hload, hfinish⟩ :
      (do [Feed.script file b.source].forM Feed.load; finish : Compile Program)
        (Compiler.ofConfig {}) = .ok p c')
  rw [b.lines_source] at htakes
  have hbody := Block.reaches (stands_fresh file) htakes
  obtain ⟨⟨plan, hplan⟩, _⟩ := hbody.trans hbody.2.last
  have hcode : c.program.code.toList = plan.bytes Label.placeholder := hplan.writes.code
  obtain ⟨hbytes, _⟩ := finish_plan hcode hplan.writes.fixups hfinish
  have hlegible : Plan.Legible (plan ++ [.plain .stop]) :=
    Plan.legible_append hplan.writes.legible (Plan.legible_singleton ⟨trivial, rfl⟩)
  -- the stream reads in one way only
  rw [Plan.bytes_eq_stream] at hbytes
  have hread := Code.instructions_of_toList (Plan.legible_resolved _ hlegible) hbytes
  have hclosed := hwf.closed hsize
  rw [Except.ok.inj (hclosed.reading.symm.trans hread)] at hclosed
  exact ⟨c, plan, _, hplan, hclosed⟩

/-- What is compiled behind these lines of a file begins at the address `a`. -/
def Begins (file : String) (texts : List (List Char)) (a : Nat) : Prop :=
  ∃ c, Takes (fresh file) texts c ∧ c.program.position = a

/-- The stack follows the nesting of choices.  When an accepted script, whose exits stay
inside their choices, runs from its start, with jumps on or off, the stack has one value
for every choice around the line that is reached.  And from the first line of a choice on
the run stays in the code of the choice until it comes to the line behind it, with the
stack and the value under test as they were before the choice, however it was left. -/
theorem Block.choices_balanced {b : Block} (hscoped : b.scoped false = true) {file : String}
    {p : Program} (hp : compile file b.source = .ok p) (hsize : p.code.size < 2 ^ 63) {σ : Type}
    (host : Host σ) (lock : Bool) (m₀ : Machine) (s : σ) :
    ∃ m, Machine.start p.code 0 lock m₀ = .ok () m ∧
      (∀ before row behind, b.rows = before ++ row :: behind →
        ∃ a, Begins file (before.map Prod.fst) a ∧
          ∀ w, Exec.Goes host (m, s) w → w.1.position = a → w.1.stack.size = row.2) ∧
      (∀ before value clauses d behind,
        b.rows = before ++ (Stmt.choose value clauses).outline d ++ behind →
        ∃ a z, Begins file (before.map Prod.fst) a ∧
          Begins file ((before ++ (Stmt.choose value clauses).outline d).map Prod.fst) z ∧
          ∀ w w', Exec.Goes host (m, s) w → w.1.position = a → Exec.Goes host w w' →
            (a ≤ w'.1.position ∧ w'.1.position < z) ∨
              ∃ v, Exec.Goes host w v ∧ Exec.Goes host v w' ∧ Exec.Restored w.1 z v.1) := by
  obtain ⟨c, plan, f, hclimbs, hclosed⟩ := Block.climbs_of_compile hp hsize
  obtain ⟨finish, hat, hstop, hlen⟩ := Block.at_of_compile hp
  obtain ⟨i, hi⟩ := hclosed.head_mem
  rw [← hlen] at hstop
  have hleveled := Block.leveled hclosed hsize hscoped hat hstop ⟨i, hi⟩
  obtain ⟨m, hm, hdepth⟩ := Machine.start_atDepth hclosed.reading hi lock m₀
  refine ⟨m, hm, ?_, ?_⟩
  · intro before row behind hrows
    rw [hrows] at hclimbs
    obtain ⟨c₁, ps, qs, rfl, hps, hqs⟩ := hclimbs.split
    obtain ⟨hposition, hrises⟩ := hps.of_fresh
    refine ⟨c₁.program.position, ⟨c₁, hps.takes, rfl⟩, ?_⟩
    intro w hw ha
    have hheight := (Exec.goes_atDepth hclosed hleveled hdepth hw).height
    rw [ha, hposition, (starts_cut f rfl).2, hrises] at hheight
    cases hqs with
    | cons => exact Int.ofNat.inj hheight
  · intro before value clauses d behind hrows
    rw [hrows] at hclimbs
    obtain ⟨c₂, _, rs, rfl, hboth, _⟩ := hclimbs.split
    obtain ⟨c₁, ps, qs, rfl, hps, hqs⟩ := hboth.split
    refine ⟨c₁.program.position, c₂.program.position, ⟨c₁, hps.takes, rfl⟩,
      ⟨c₂, hboth.takes, rfl⟩, ?_⟩
    intro w w' hw ha hgoes
    exact Exec.restores hleveled (hps.basin hqs rfl f) hclosed
      (Exec.goes_atDepth hclosed hleveled hdepth hw) ha hgoes

theorem choiceOfOne_balanced :
    ∃ p, choiceOfOne.scoped false = true ∧ compile "" choiceOfOne.source = .ok p ∧
      p.code.size < 2 ^ 63 ∧ ∃ m, Machine.start p.code 0 false {} = .ok () m ∧
      (∃ a, Begins "" [headed .choose one.chars, headed .caseOf one.chars] a ∧
        ∀ w, Exec.Goes Host.mute (m, ()) w → w.1.position = a → w.1.stack.size = 1) ∧
      (∃ a z, Begins "" [] a ∧ Begins "" choiceOfOne.lines z ∧
        ∀ w w', Exec.Goes Host.mute (m, ()) w → w.1.position = a → Exec.Goes Host.mute w w' →
          (a ≤ w'.1.position ∧ w'.1.position < z) ∨
            ∃ v, Exec.Goes Host.mute w v ∧ Exec.Goes Host.mute v w' ∧ Exec.Restored w.1 z v.1) := by
  obtain ⟨c, htakes⟩ := takes_choiceOfOne
  obtain ⟨p, hp⟩ := Block.compiles_of_takes htakes
  have hsize := size_choiceOfOne hp
  obtain ⟨m, hm, hlines, hchoices⟩ :=
    Block.choices_balanced (b := choiceOfOne) rfl hp hsize Host.mute false {} ()
  refine ⟨p, rfl, hp, hsize, m, hm, ?_, ?_⟩
  · exact hlines [(headed .choose one.chars, 0), (headed .caseOf one.chars, 1)]
      (alone .breakOut, 1) _ rfl
  · exact hchoices [] one (.case one (.cons .leave .nil) .nil) 0 [([], 0)] rfl

end Structured

end ScriptMachine
