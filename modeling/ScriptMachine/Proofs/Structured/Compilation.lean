/-
  ScriptMachine.Proofs.Structured.Compilation

  What the compiler writes for a structured script.  When the lines of a part are
  accepted, the compiler has written a plan for it and has come back to the stacks
  it had before (`Continues`); and once all labels have their addresses, the plan
  stands in the stream as the placement of the part asks (`Places`).
-/

import ScriptMachine.Proofs.Structured.Statements

namespace ScriptMachine

/-! ## Plans in a stream -/

/-- The stream holds the plan at `p`, with its jumps filled in from the blocks. -/
def Code.HoldsPlan (k : Code) (b : Blocks) (p : Nat) (ps : Plan) : Prop :=
  k.Holds p (ps.bytes b.operand)

/-- Every address recorded in the blocks lies in the stream. -/
def Blocks.Inside (b : Blocks) (k : Code) : Prop :=
  ∀ l a, b.address? l = some a → a < k.size

namespace Code

variable {k : Code} {b : Blocks} {p : Nat} {ps qs : Plan}

theorem holdsPlan_append_iff :
    k.HoldsPlan b p (ps ++ qs) ↔ k.HoldsPlan b p ps ∧ k.HoldsPlan b (p + Plan.size ps) qs := by
  unfold HoldsPlan
  rw [Plan.bytes_append, holds_append_iff, Plan.length_bytes]

/-- An instruction of a plan stands in the stream. -/
theorem HoldsPlan.has {x : Planned} (h : k.HoldsPlan b p [x]) (hx : x.Legible) :
    k.Has p (x.resolved b.operand) (p + Plan.size [x]) where
  legible := Planned.legible_resolved _ hx
  holds := by
    have hbytes : Plan.bytes b.operand [x] = (x.resolved b.operand).bytes :=
      List.append_nil _
    rw [← hbytes]
    exact h
  next := by
    rw [← Plan.length_bytes b.operand [x]]
    exact congrArg (p + ·) (congrArg List.length (List.append_nil _))

end Code

theorem Blocks.operand_of_address? {b : Blocks} {l : Label} {a : Nat} (h : b.address? l = some a) :
    b.operand l = Int64.ofNat a := by
  rw [operand, h]
  rfl

namespace Structured

open Compile

-- comparing two states should never run the writing of the program
attribute [local irreducible] Program.write

/-! ## Legible instructions -/

theorem Term.legible {t : Symbols} {a : Term} (h : a.Known t) : a.operand.Legible := by
  cases a with
  | number d => exact trivial
  | text q => exact textFits_of_short q
  | var x => exact h.2

theorem Expr.legible {t : Symbols} {e : Expr} (h : e.Known t) : e.tree.Legible := by
  induction e with
  | last a => exact Term.legible h
  | more a sign rest ih =>
    have hall : ∀ p ∈ Operator.spellings, p.2 ≠ .close := by decide
    exact ⟨hall sign.1 sign.2, Term.legible h.1, ih h.2⟩

theorem Change.legible {t : Symbols} {change : Change} (h : change.Known t) {x : Name}
    (hx : Item.textFits x.text = true) :
    (change.instruction x).Legible ∧ (change.instruction x).dest? = none := by
  cases change with
  | store how e => exact ⟨⟨hx, Expr.legible h⟩, rfl⟩
  | increment => exact ⟨hx, rfl⟩
  | decrement => exact ⟨hx, rfl⟩

/-! ## Parts of a script -/

/-- The compiler has gone on from `c` to `c'` by writing the plan, and stands inside
the same structures. -/
structure Continues (c : Compiler) (ps : Plan) (c' : Compiler) : Prop where
  writes : c.Writes ps c'
  usual : Usual c'
  consistent : c'.blocks.Consistent
  grows : c.blocks.Extends c'.blocks
  structures : c'.structures = c.structures
  switchEnds : c'.switchEnds = c.switchEnds
  whileEnd : c'.whileEnd = c.whileEnd
  whileEnds : c'.whileEnds = c.whileEnds

theorem Continues.trans {c d e : Compiler} {ps qs : Plan} (h : Continues c ps d)
    (k : Continues d qs e) : Continues c (ps ++ qs) e where
  writes := h.writes.trans k.writes
  usual := k.usual
  consistent := k.consistent
  grows := h.grows.trans k.grows
  structures := k.structures.trans h.structures
  switchEnds := k.switchEnds.trans h.switchEnds
  whileEnd := k.whileEnd.trans h.whileEnd
  whileEnds := k.whileEnds.trans h.whileEnds

/-- In the blocks, the loop around `c` ends at `exit` and the choice at `leave`. -/
structure Leads (c : Compiler) (b : Blocks) (exit leave : Nat) : Prop where
  exit : ∀ l, c.whileEnd = some l → b.address? l = some exit
  leave : ∀ l, c.switchEnds.top? = some l → b.address? l = some leave

theorem Leads.continue {c c' : Compiler} {ps : Plan} {b : Blocks} {exit leave : Nat}
    (h : Leads c b exit leave) (k : Continues c ps c') : Leads c' b exit leave where
  exit := by rw [k.whileEnd]; exact h.exit
  leave := by rw [k.switchEnds]; exact h.leave

/-- With these blocks every label of the plan has an address, and a stream that
holds the plan is as `At` says. -/
structure Places (b : Blocks) (start : Nat) (ps : Plan) (At : Code → Prop) : Prop where
  labelled : ∀ l ∈ ps.labels, (b.address? l).isSome
  stands : ∀ k, b.Inside k → k.HoldsPlan b start ps → At k

section
variable {b : Blocks} {ps qs : Plan} {P Q : Code → Prop} {c d : Compiler}

theorem Places.mono {start : Nat} (h : Places b start ps P) (hPQ : ∀ k, P k → Q k) :
    Places b start ps Q :=
  ⟨h.labelled, fun k hk hplan => hPQ k (h.stands k hk hplan)⟩

/-- A plan behind another one. -/
theorem Places.append (hw : c.Writes ps d) (h : Places b c.program.position ps P)
    (k : Places b d.program.position qs Q) :
    Places b c.program.position (ps ++ qs) fun code => P code ∧ Q code where
  labelled := by
    intro l hl
    rw [Plan.labels, List.filterMap_append] at hl
    rcases List.mem_append.1 hl with hl | hl
    · exact h.labelled l hl
    · exact k.labelled l hl
  stands := by
    intro code hcode hplan
    obtain ⟨hp, hq⟩ := Code.holdsPlan_append_iff.1 hplan
    rw [← hw.position] at hq
    exact ⟨h.stands code hcode hp, k.stands code hcode hq⟩

theorem places_nil {start : Nat} (hP : ∀ k, P k) : Places b start [] P :=
  ⟨fun _ hl => (List.not_mem_nil hl).elim, fun k _ _ => hP k⟩

theorem places_plain {i : Instruction} (hw : c.Writes [.plain i] d) :
    Places b c.program.position [.plain i] fun k =>
      k.Has c.program.position i d.program.position where
  labelled := fun _ hl => (List.not_mem_nil hl).elim
  stands := by
    intro k _ hplan
    rw [hw.position]
    exact hplan.has (hw.legible (.plain i) (List.mem_singleton.2 rfl))

theorem labelled_jump {x : Planned} {l : Label} {n : Nat} (hx : x.label? = some l)
    (hl : b.address? l = some n) : ∀ m ∈ Plan.labels [x], (b.address? m).isSome := by
  intro m hm
  rw [Plan.labels, List.filterMap_cons_some hx] at hm
  obtain rfl := List.mem_singleton.1 hm
  rw [hl]
  rfl

section
variable {l : Label} {n : Nat} (hl : b.address? l = some n)
include hl

/-- A jump to a label with an address. -/
theorem places_jump {x : Planned} (hx : x.label? = some l) (hw : c.Writes [x] d) :
    Places b c.program.position [x] fun k =>
      k.Has c.program.position (x.resolved fun _ => Int64.ofNat n) d.program.position ∧
        n < k.size where
  labelled := labelled_jump hx hl
  stands := by
    intro k hk hplan
    refine ⟨?_, hk l n hl⟩
    rw [hw.position, ← Blocks.operand_of_address? hl, ← Planned.resolved_of_label hx]
    exact hplan.has (hw.legible x (List.mem_singleton.2 rfl))

theorem places_unless {e : Expr} (hw : c.Writes [.unless e.tree l] d) :
    Places b c.program.position [.unless e.tree l] fun k =>
      Tests k c.program.position e d.program.position n :=
  places_jump hl rfl hw

theorem places_unlessCase {e : Expr} (hw : c.Writes [.unlessCase e.tree l] d) :
    Places b c.program.position [.unlessCase e.tree l] fun k =>
      Matches k c.program.position e d.program.position n :=
  places_jump hl rfl hw

theorem places_goto (hw : c.Writes [.goto l] d) :
    Places b c.program.position [.goto l] fun k =>
      Jumps k c.program.position n d.program.position :=
  places_jump hl rfl hw

end

end

/-- The lines of a part took the compiler from `c` to `c'`: it wrote a plan, came
back to the blocks it had, and the plan is placed as `At` says. -/
def Compiled (c c' : Compiler) (At : Code → (depth start finish exit leave : Nat) → Prop) : Prop :=
  ∃ ps, Continues c ps c' ∧ c'.blocks.opened = c.blocks.opened ∧
    ∀ b exit leave, c'.blocks.Extends b → Leads c b exit leave →
      Places b c.program.position ps fun k =>
        At k c.switchEnds.size c.program.position c'.program.position exit leave

/-- Further branches: `o` is the block of their ladder, which goes on from the steps
it has to `steps`.  Once the step behind these and the end of the block are recorded
at the end of the branches, the branches are placed. -/
def BranchesCompiled (c c' : Compiler) (o : OpenBlock) (rest : List OpenBlock)
    (others : Branches) : Prop :=
  ∃ ps steps, Continues c ps c' ∧ c'.blocks.opened = ⟨o.number, steps⟩ :: rest ∧
    ∀ b exit leave, c'.blocks.Extends b → Leads c b exit leave →
      b.address? ⟨o.number, .step (steps + 1)⟩ = some c'.program.position →
      b.address? ⟨o.number, .finish⟩ = some c'.program.position →
      ∃ next, b.address? ⟨o.number, .step (o.steps + 1)⟩ = some next ∧
        Places b c.program.position ps fun k =>
          others.At k c.switchEnds.size c.program.position next c'.program.position exit leave

/-- Clauses, likewise; they start at the step that their block takes next. -/
def ClausesCompiled (c c' : Compiler) (o : OpenBlock) (rest : List OpenBlock)
    (clauses : Clauses) : Prop :=
  ∃ ps steps, Continues c ps c' ∧ c'.blocks.opened = ⟨o.number, steps⟩ :: rest ∧
    ∀ b exit leave, c'.blocks.Extends b → Leads c b exit leave →
      b.address? ⟨o.number, .step (steps + 1)⟩ = some c'.program.position →
      b.address? ⟨o.number, .step (o.steps + 1)⟩ = some c.program.position ∧
        Places b c.program.position ps fun k =>
          clauses.At k c.switchEnds.size c.program.position c'.program.position exit leave

/-! ## Statements of one line -/

section
variable {c c' : Compiler}

/-- The blocks and all stacks are the same. -/
structure SameStacks (c c' : Compiler) : Prop where
  blocks : c'.blocks = c.blocks
  structures : c'.structures = c.structures
  switchEnds : c'.switchEnds = c.switchEnds
  whileEnd : c'.whileEnd = c.whileEnd
  whileEnds : c'.whileEnds = c.whileEnds

theorem sameStacks_withJump (c : Compiler) (items : List Item) (l : Label) :
    SameStacks c (c.withJump items l) :=
  ⟨rfl, rfl, rfl, rfl, rfl⟩

theorem sameStacks_withCase (c : Compiler) (inside : Bool) : SameStacks c (c.withCase inside) :=
  ⟨rfl, rfl, rfl, rfl, rfl⟩

theorem SameStacks.trans {c d e : Compiler} (h : SameStacks c d) (k : SameStacks d e) :
    SameStacks c e where
  blocks := k.blocks.trans h.blocks
  structures := k.structures.trans h.structures
  switchEnds := k.switchEnds.trans h.switchEnds
  whileEnd := k.whileEnd.trans h.whileEnd
  whileEnds := k.whileEnds.trans h.whileEnds

theorem writes_withCase {ps : Plan} {c d : Compiler} (h : c.Writes ps d) (inside : Bool) :
    c.Writes ps (d.withCase inside) :=
  h.same rfl rfl

/-- A line that writes one instruction and changes nothing but names. -/
theorem compiled_line {x : Planned} (hw : c.Writes [x] c') (hc : Usual c')
    (hb : c.blocks.Consistent) (hsame : SameStacks c c')
    {At : Code → (depth start finish exit leave : Nat) → Prop}
    (hAt : ∀ b exit leave, Leads c b exit leave → Places b c.program.position [x] fun k =>
      At k c.switchEnds.size c.program.position c'.program.position exit leave) :
    Compiled c c' At := by
  refine ⟨[x], ⟨hw, hc, ?_, ?_, hsame.structures, hsame.switchEnds, hsame.whileEnd,
    hsame.whileEnds⟩, ?_, ?_⟩
  · rw [hsame.blocks]
    exact hb
  · rw [hsame.blocks]
    exact .refl _
  · rw [hsame.blocks]
  · intro b exit leave _ hleads
    exact hAt b exit leave hleads

theorem writes_plain {i : Instruction} (hi : i.Legible ∧ i.dest? = none) :
    c.Writes [.plain i] { c with program := c.program.writeAll i.items } := by
  have hall : ∀ j ∈ [i], j.Legible ∧ j.dest? = none := by
    intro j hj
    obtain rfl := List.mem_singleton.1 hj
    exact hi
  refine .instructions hall ?_ rfl
  · simp only [List.flatMap_cons, List.flatMap_nil, List.append_nil]
    exact Program.toList_writeAll _ _

theorem compiled_assign (hc : Usual c) (hb : c.blocks.Consistent) {x : Name} {change : Change}
    (h : line (x.chars ++ ' ' :: change.chars) c = .ok () c') :
    Compiled c c' fun k depth start finish exit leave =>
      (Stmt.assign x change).At k depth start finish exit leave := by
  obtain ⟨hx, hchange, rfl⟩ := (line_assign_eq_ok_iff hc x change).1 h
  have hw := writes_plain (c := c) (Change.legible hchange hx.2)
  refine compiled_line hw (hc.of_sameNames ⟨rfl, rfl⟩) hb ⟨rfl, rfl, rfl, rfl, rfl⟩ ?_
  intro b exit leave _
  exact places_plain hw

theorem compiled_declare (hc : Usual c) (hb : c.blocks.Consistent) {x : Name}
    (h : line (headed .var x.chars) c = .ok () c') :
    Compiled c c' fun k depth start finish exit leave =>
      (Stmt.declare x none).At k depth start finish exit leave := by
  obtain ⟨_, rfl⟩ := (line_declare_eq_ok_iff hc x).1 h
  refine ⟨[], ⟨.none rfl rfl, hc.declared x, hb, .refl _, rfl, rfl, rfl, rfl⟩, rfl, ?_⟩
  intro b exit leave _ _
  exact places_nil fun _ => rfl

theorem compiled_declareAssign (hc : Usual c) (hb : c.blocks.Consistent) {x : Name}
    {change : Change} (h : line (headed .var (x.chars ++ ' ' :: change.chars)) c = .ok () c') :
    Compiled c c' fun k depth start finish exit leave =>
      (Stmt.declare x (some change)).At k depth start finish exit leave := by
  obtain ⟨_, hfits, hchange, rfl⟩ := (line_declareAssign_eq_ok_iff hc x change).1 h
  have hdeclared : c.Writes [] (declared c x) := .none rfl rfl
  have hw := hdeclared.trans (writes_plain (Change.legible hchange hfits))
  refine compiled_line hw ((hc.declared x).of_sameNames ⟨rfl, rfl⟩) hb
    ⟨rfl, rfl, rfl, rfl, rfl⟩ ?_
  intro b exit leave _
  exact places_plain hw

theorem compiled_exit (hc : Usual c) (hb : c.blocks.Consistent)
    (h : line (alone .exitWhile) c = .ok () c') :
    Compiled c c' fun k depth start finish exit leave =>
      Stmt.exit.At k depth start finish exit leave := by
  obtain ⟨_, l, hl, rfl⟩ := (line_exit_eq_ok_iff hc).1 h
  have hw := Compiler.writes_withJump (c := c) (p := .goto l) rfl trivial
  refine compiled_line hw (hc.withJump _ _) hb (sameStacks_withJump _ _ _) ?_
  intro b exit leave hleads
  simp only [Stmt.At]
  exact places_goto (hleads.exit l hl) hw

theorem compiled_leave (hc : Usual c) (hb : c.blocks.Consistent)
    (h : line (alone .breakOut) c = .ok () c') :
    Compiled c c' fun k depth start finish exit leave =>
      Stmt.leave.At k depth start finish exit leave := by
  obtain ⟨_, l, hl, rfl⟩ := (line_break_eq_ok_iff hc).1 h
  have hw := writes_withCase (Compiler.writes_withJump (c := c) (p := .goto l) rfl trivial)
    (if c.switchDepth = 1 then false else c.inCase)
  have hsame := (sameStacks_withJump c [.code .goto] l).trans (sameStacks_withCase _
    (if c.switchDepth = 1 then false else c.inCase))
  refine compiled_line hw ((hc.withJump _ _).withCase _) hb hsame ?_
  intro b exit leave hleads
  simp only [Stmt.At]
  refine (places_goto (hleads.leave l hl) hw).mono fun k hk => ⟨?_, hk⟩
  -- a choice whose end is known is open
  have hsize : 0 < c.switchEnds.items.size := by
    rw [Nat.pos_iff_ne_zero]
    intro hzero
    rw [Stack.top?, Array.back?, hzero] at hl
    simp [Array.eq_empty_of_size_eq_zero hzero] at hl
  exact hsize

end

/-! ## Ladders -/

/-- A jump written in a state that holds the same code. -/
theorem writes_jump {c d c' : Compiler} {x : Planned} {l : Label} (hx : x.label? = some l)
    (hl : x.Legible) (hcode : d.program.code = c.program.code) (hfixups : d.fixups = c.fixups)
    (hcode' : c'.program.code = (d.withJump x.front l).program.code)
    (hfixups' : c'.fixups = (d.withJump x.front l).fixups) : c.Writes [x] c' := by
  have hsame : c.Writes [] d := .none hcode hfixups
  have hjump := hsame.trans (Compiler.writes_withJump (c := d) hx hl)
  exact hjump.same hcode' hfixups'

section
variable {c c₁ c₂ c₃ c' : Compiler}

theorem writes_ifState {e : Expr} (he : e.tree.Legible) :
    c.Writes [.unless e.tree ⟨c.blocks.allocated, .step 1⟩] (ifState c e) := by
  refine writes_jump (d := { c.blockOpened .ifThen with
    structures := { c.structures with items := c.structures.items.push .ifThen } }) rfl he ?_ ?_ ?_ ?_
  all_goals rfl

/-- Behind the line that opens a ladder the names are usual and the blocks
consistent. -/
theorem if_line (hc : Usual c) (hb : c.blocks.Consistent) {e : Expr}
    (h : line (headed .ifThen e.chars) c = .ok () c₁) : Usual c₁ ∧ c₁.blocks.Consistent := by
  obtain ⟨_, hlt, _, _, rfl⟩ := (line_if_eq_ok_iff hc e).1 h
  exact ⟨hc.of_sameNames ⟨rfl, rfl⟩, (Compiler.blockOpened_blocks hb .ifThen hlt).1⟩

/-- A stack after leaving what was entered. -/
theorem stack_pop {α : Type} {a : α} {s t : Stack α}
    (h : t = { s with items := s.items.push a }) : { t with items := t.items.pop } = s := by
  subst h
  exact Stack.pop_push s a

theorem compiled_branch (hc : Usual c) (hb : c.blocks.Consistent) {e : Expr} {body : Block}
    {others : Branches} (hif : line (headed .ifThen e.chars) c = .ok () c₁)
    (hbody : Compiled c₁ c₂ fun k depth start finish exit leave =>
      body.At k depth start finish exit leave)
    (hothers : ∀ o rest, c₂.blocks.opened = o :: rest → BranchesCompiled c₂ c₃ o rest others)
    (hend : line (alone .endIf) c₃ = .ok () c') :
    Compiled c c' fun k depth start finish exit leave =>
      (Stmt.branch e body others).At k depth start finish exit leave := by
  obtain ⟨_, hlt, _, he, rfl⟩ := (line_if_eq_ok_iff hc e).1 hif
  have hopened := Compiler.blockOpened_blocks hb .ifThen hlt
  obtain ⟨ps, h₂, ho₂, hps⟩ := hbody
  obtain ⟨qs, steps, h₃, ho₃, hqs⟩ := hothers ⟨c.blocks.allocated, 0⟩ c.blocks.opened ho₂
  obtain ⟨_, _, o, rest, ho, hs, rfl⟩ := (line_endIf_eq_ok_iff h₃.usual).1 hend
  obtain ⟨rfl, rfl⟩ := List.cons.inj (ho₃.symm.trans ho)
  have hleft := Compiler.blockLeft_blocks h₃.consistent .endIf ho hs
  have hw := writes_ifState (c := c) (Expr.legible he)
  have hwrites := (hw.trans h₂.writes).trans h₃.writes
  have hcontinues : Continues c _ (ifLeft (c₃.blockLeft .endIf ⟨c.blocks.allocated, steps⟩
      c.blocks.opened)) :=
    { writes := hwrites.same rfl rfl
      usual := h₃.usual.of_sameNames ⟨rfl, rfl⟩
      consistent := hleft.1
      grows := ((hopened.2.trans h₂.grows).trans h₃.grows).trans hleft.2
      structures := stack_pop (h₃.structures.trans h₂.structures)
      switchEnds := h₃.switchEnds.trans h₂.switchEnds
      whileEnd := h₃.whileEnd.trans h₂.whileEnd
      whileEnds := h₃.whileEnds.trans h₂.whileEnds }
  refine ⟨_, hcontinues, rfl, ?_⟩
  intro b exit leave hb' hleads
  have hleads₁ : Leads (ifState c e) b exit leave := ⟨hleads.exit, hleads.leave⟩
  obtain ⟨hstep, hfinish⟩ := Compiler.address?_blockLeft c₃ .endIf ⟨c.blocks.allocated, steps⟩
    c.blocks.opened
  have hb₃ : c₃.blocks.Extends b := hleft.2.trans hb'
  have hbody := hps b exit leave (h₃.grows.trans hb₃) hleads₁
  obtain ⟨next, hnext, hothers⟩ := hqs b exit leave hb₃ (hleads₁.continue h₂)
    (hb' _ _ hstep) (hb' _ _ hfinish)
  rw [h₂.switchEnds] at hothers
  have hparts := Places.append (hw.trans h₂.writes)
    (Places.append hw (places_unless hnext hw) hbody) hothers
  simp only [Stmt.At]
  refine hparts.mono ?_
  rintro k ⟨⟨htest, hb⟩, ho⟩
  exact ⟨_, _, next, htest, hb, ho⟩

theorem branchesCompiled_nil (hc : Usual c) (hb : c.blocks.Consistent) {o : OpenBlock}
    {rest : List OpenBlock} (ho : c.blocks.opened = o :: rest) :
    BranchesCompiled c c o rest .nil := by
  refine ⟨[], o.steps, ⟨.refl c, hc, hb, .refl _, rfl, rfl, rfl, rfl⟩, ho, ?_⟩
  intro b exit leave _ _ hstep _
  exact ⟨_, hstep, places_nil fun _ => ⟨rfl, rfl⟩⟩

/-- Behind the jump over further branches. -/
theorem continues_branchState (hc : Usual c) (hb : c.blocks.Consistent) (w : Word) {o : OpenBlock}
    {rest : List OpenBlock} (ho : c.blocks.opened = o :: rest) (hs : o.steps ≠ 255) :
    Continues c [.goto ⟨o.number, .finish⟩] (branchState c w o rest) := by
  have hw := Compiler.writes_withJump (c := c) (p := .goto ⟨o.number, .finish⟩) rfl trivial
  have hlinked := Compiler.blockLinked_blocks
    (c := c.withJump [.code .goto] ⟨o.number, .finish⟩) hb w
    ho hs
  exact
    { writes := hw.same rfl rfl
      usual := (hc.withJump _ _).blockLinked w o rest
      consistent := hlinked.1
      grows := hlinked.2
      structures := rfl
      switchEnds := rfl
      whileEnd := rfl
      whileEnds := rfl }

theorem branchesCompiled_otherwise (hc : Usual c) (hb : c.blocks.Consistent) {body : Block}
    {o : OpenBlock} {rest : List OpenBlock} (ho : c.blocks.opened = o :: rest)
    (helse : line (alone .otherwise) c = .ok () c₁)
    (hbody : Compiled c₁ c' fun k depth start finish exit leave =>
      body.At k depth start finish exit leave) :
    BranchesCompiled c c' o rest (.otherwise body) := by
  obtain ⟨_, _, o', rest', ho', hs, rfl⟩ := (line_otherwise_eq_ok_iff hc).1 helse
  obtain ⟨rfl, rfl⟩ := List.cons.inj (ho.symm.trans ho')
  have hjump := continues_branchState hc hb .otherwise ho hs
  obtain ⟨ps, hps, hopened, hplaces⟩ := hbody
  refine ⟨_, o.steps + 1, hjump.trans hps, hopened, ?_⟩
  intro b exit leave hb' hleads _ hfinish
  have hnext := Compiler.address?_blockLinked (c.withJump [.code .goto] ⟨o.number, .finish⟩)
    .otherwise o rest
  have hbody := hplaces b exit leave hb' (hleads.continue hjump)
  rw [hjump.switchEnds] at hbody
  simp only [Branches.At]
  refine ⟨(branchState c .otherwise o rest).program.position, hb' _ _ (hps.grows _ _ hnext), ?_⟩
  exact Places.append hjump.writes (places_goto hfinish hjump.writes) hbody

theorem else_line (hc : Usual c) (hb : c.blocks.Consistent)
    (h : line (alone .otherwise) c = .ok () c₁) : Usual c₁ ∧ c₁.blocks.Consistent := by
  obtain ⟨_, _, o, rest, ho, hs, rfl⟩ := (line_otherwise_eq_ok_iff hc).1 h
  have hjump := continues_branchState hc hb .otherwise ho hs
  exact ⟨hjump.usual, hjump.consistent⟩

/-- Behind the line that opens another branch with a condition. -/
theorem continues_elseIf (hc : Usual c) (hb : c.blocks.Consistent) {e : Expr} {o : OpenBlock}
    {rest : List OpenBlock} (ho : c.blocks.opened = o :: rest) (hs : o.steps ≠ 255)
    (he : e.Known c.symbols) :
    Continues (branchState c .elseIf o rest) [.unless e.tree ⟨o.number, .step (o.steps + 1 + 1)⟩]
      ((branchState c .elseIf o rest).withJump (.code .cmp :: e.tree.items)
        ⟨o.number, .step (o.steps + 1 + 1)⟩) := by
  have hjump := continues_branchState hc hb .elseIf ho hs
  exact
    { writes := Compiler.writes_withJump
        (p := .unless e.tree ⟨o.number, .step (o.steps + 1 + 1)⟩) rfl (Expr.legible he)
      usual := hjump.usual.withJump _ _
      consistent := hjump.consistent
      grows := .refl _
      structures := rfl
      switchEnds := rfl
      whileEnd := rfl
      whileEnds := rfl }

theorem elseIf_line (hc : Usual c) (hb : c.blocks.Consistent) {e : Expr}
    (h : line (headed .elseIf e.chars) c = .ok () c₁) : Usual c₁ ∧ c₁.blocks.Consistent := by
  obtain ⟨_, _, o, rest, ho, hs, _, he, rfl⟩ := (line_elseIf_eq_ok_iff hc e).1 h
  have htest := continues_elseIf hc hb ho hs he
  exact ⟨htest.usual, htest.consistent⟩

theorem branchesCompiled_also (hc : Usual c) (hb : c.blocks.Consistent) {e : Expr} {body : Block}
    {others : Branches} {o : OpenBlock} {rest : List OpenBlock}
    (ho : c.blocks.opened = o :: rest) (hif : line (headed .elseIf e.chars) c = .ok () c₁)
    (hbody : Compiled c₁ c₂ fun k depth start finish exit leave =>
      body.At k depth start finish exit leave)
    (hothers : ∀ o rest, c₂.blocks.opened = o :: rest → BranchesCompiled c₂ c' o rest others) :
    BranchesCompiled c c' o rest (.also e body others) := by
  obtain ⟨_, _, o', rest', ho', hs, _, he, rfl⟩ := (line_elseIf_eq_ok_iff hc e).1 hif
  obtain ⟨rfl, rfl⟩ := List.cons.inj (ho.symm.trans ho')
  have hjump := continues_branchState hc hb .elseIf ho hs
  have htest := continues_elseIf hc hb ho hs he
  obtain ⟨ps, h₂, ho₂, hps⟩ := hbody
  obtain ⟨qs, steps, h₃, ho₃, hqs⟩ := hothers ⟨o.number, o.steps + 1⟩ rest ho₂
  have hfront := (hjump.trans htest).trans h₂
  refine ⟨_, steps, hfront.trans h₃, ho₃, ?_⟩
  intro b exit leave hb' hleads hstep hfinish
  have hnext := Compiler.address?_blockLinked (c.withJump [.code .goto] ⟨o.number, .finish⟩)
    .elseIf o rest
  have hb₁ : (branchState c .elseIf o rest).blocks.Extends b :=
    (htest.grows.trans h₂.grows).trans (h₃.grows.trans hb')
  have hbody := hps b exit leave (h₃.grows.trans hb') (hleads.continue (hjump.trans htest))
  obtain ⟨n, hn, hothers⟩ := hqs b exit leave hb' (hleads.continue hfront) hstep hfinish
  rw [hfront.switchEnds] at hothers
  rw [(hjump.trans htest).switchEnds] at hbody
  have hparts := Places.append hfront.writes (Places.append (hjump.trans htest).writes
    (Places.append hjump.writes (places_goto hfinish hjump.writes) (places_unless hn htest.writes))
    hbody) hothers
  simp only [Branches.At]
  refine ⟨(branchState c .elseIf o rest).program.position, hb₁ _ _ hnext, hparts.mono ?_⟩
  rintro k ⟨⟨⟨hgoto, htest⟩, hb⟩, ho⟩
  exact ⟨hgoto, _, _, n, htest, hb, ho⟩

end

/-! ## Loops -/

section
variable {c c₁ c₂ c' : Compiler}

theorem writes_whileState {e : Expr} (he : e.tree.Legible) :
    c.Writes [.unless e.tree ⟨c.blocks.allocated, .finish⟩] (whileState c e) := by
  refine writes_jump (d := { c.blockOpened .whileDo with
    structures := { c.structures with items := c.structures.items.push .whileDo } }) rfl he ?_ ?_ ?_ ?_
  all_goals rfl

/-- Behind the line that opens a loop the names are usual and the blocks
consistent. -/
theorem while_line (hc : Usual c) (hb : c.blocks.Consistent) {e : Expr}
    (h : line (headed .whileDo e.chars) c = .ok () c₁) : Usual c₁ ∧ c₁.blocks.Consistent := by
  obtain ⟨_, hlt, _, _, _, rfl⟩ := (line_while_eq_ok_iff hc e).1 h
  exact ⟨hc.of_sameNames ⟨rfl, rfl⟩, (Compiler.blockOpened_blocks hb .whileDo hlt).1⟩

theorem compiled_loop (hc : Usual c) (hb : c.blocks.Consistent) {e : Expr} {body : Block}
    (hwhile : line (headed .whileDo e.chars) c = .ok () c₁)
    (hbody : Compiled c₁ c₂ fun k depth start finish exit leave =>
      body.At k depth start finish exit leave)
    (hend : line (alone .endWhile) c₂ = .ok () c') :
    Compiled c c' fun k depth start finish exit leave =>
      (Stmt.loop e body).At k depth start finish exit leave := by
  obtain ⟨_, hlt, _, _, he, rfl⟩ := (line_while_eq_ok_iff hc e).1 hwhile
  have hopened := Compiler.blockOpened_blocks hb .whileDo hlt
  obtain ⟨ps, h₂, ho₂, hps⟩ := hbody
  obtain ⟨_, _, o, rest, l, ho, hs, hl, rfl⟩ := (line_endWhile_eq_ok_iff h₂.usual).1 hend
  obtain ⟨rfl, rfl⟩ := List.cons.inj (ho₂.symm.trans ho)
  -- what comes back from the stack of loops is what was put there
  have hends : c₂.whileEnds = { c.whileEnds with items := c.whileEnds.items.push c.whileEnd } :=
    h₂.whileEnds
  have hl' : l = c.whileEnd := by
    rw [hends, Stack.top?_push] at hl
    exact (Option.some.inj hl).symm
  have hw := writes_whileState (c := c) (Expr.legible he)
  have hback := Compiler.writes_withJump (c := c₂) (p := .goto ⟨c.blocks.allocated, .start⟩) rfl
    trivial
  have hleft := Compiler.blockLeft_blocks
    (c := c₂.withJump [.code .goto] ⟨c.blocks.allocated, .start⟩) h₂.consistent .endWhile ho hs
  have hwrites := (hw.trans h₂.writes).trans hback
  have hcontinues : Continues c _ (whileLeft ((c₂.withJump [.code .goto]
      ⟨c.blocks.allocated, .start⟩).blockLeft .endWhile ⟨c.blocks.allocated, 0⟩ c.blocks.opened) l) :=
    { writes := hwrites.same rfl rfl
      usual := h₂.usual.of_sameNames ⟨rfl, rfl⟩
      consistent := hleft.1
      grows := (hopened.2.trans h₂.grows).trans hleft.2
      structures := stack_pop h₂.structures
      switchEnds := h₂.switchEnds
      whileEnd := hl'
      whileEnds := stack_pop hends }
  refine ⟨_, hcontinues, rfl, ?_⟩
  intro b exit leave hb' hleads
  obtain ⟨_, hfinish⟩ := Compiler.address?_blockLeft
    (c₂.withJump [.code .goto] ⟨c.blocks.allocated, .start⟩) .endWhile ⟨c.blocks.allocated, 0⟩
    c.blocks.opened
  have hstart : (whileState c e).blocks.address? ⟨c.blocks.allocated, .start⟩ = _ :=
    Compiler.address?_blockOpened c .whileDo
  have hb₂ : c₂.blocks.Extends b := hleft.2.trans hb'
  have hleads₁ : Leads (whileState c e) b
      (c₂.withJump [.code .goto] ⟨c.blocks.allocated, .start⟩).program.position leave := by
    refine ⟨?_, hleads.leave⟩
    intro m hm
    obtain rfl := Option.some.inj hm
    exact hb' _ _ hfinish
  have hbody := hps b _ leave hb₂ hleads₁
  have hparts := Places.append (hw.trans h₂.writes)
    (Places.append hw (places_unless (hb' _ _ hfinish) hw) hbody)
    (places_goto (hb₂ _ _ (h₂.grows _ _ hstart)) hback)
  simp only [Stmt.At]
  refine hparts.mono ?_
  rintro k ⟨⟨htest, hb⟩, hjump⟩
  exact ⟨_, _, htest, hb, hjump⟩

end

/-! ## Choices -/

section
variable {c c₁ c₂ c' : Compiler}

theorem clausesCompiled_nil (hc : Usual c) (hb : c.blocks.Consistent) {o : OpenBlock}
    {rest : List OpenBlock} (ho : c.blocks.opened = o :: rest) :
    ClausesCompiled c c o rest .nil := by
  refine ⟨[], o.steps, ⟨.refl c, hc, hb, .refl _, rfl, rfl, rfl, rfl⟩, ho, ?_⟩
  intro b exit leave _ _ hstep
  exact ⟨hstep, places_nil fun _ => rfl⟩

/-- Behind the line that opens a case. -/
theorem continues_case (hc : Usual c) (hb : c.blocks.Consistent) {e : Expr} {o : OpenBlock}
    {rest : List OpenBlock} (ho : c.blocks.opened = o :: rest) (hs : o.steps ≠ 255)
    (he : e.Known c.symbols) :
    Continues c [.unlessCase e.tree ⟨o.number, .step (o.steps + 1 + 1)⟩]
      (((c.blockLinked .caseOf o rest).withJump (.code .case :: e.tree.items)
        ⟨o.number, .step (o.steps + 1 + 1)⟩).withCase true) := by
  have hlinked := Compiler.blockLinked_blocks hb .caseOf ho hs
  have hw : c.Writes [.unlessCase e.tree ⟨o.number, .step (o.steps + 1 + 1)⟩]
      ((c.blockLinked .caseOf o rest).withJump (.code .case :: e.tree.items)
        ⟨o.number, .step (o.steps + 1 + 1)⟩) :=
    writes_jump (d := c.blockLinked .caseOf o rest) rfl (Expr.legible he) rfl rfl rfl rfl
  exact
    { writes := writes_withCase hw true
      usual := ((hc.blockLinked .caseOf o rest).withJump _ _).withCase true
      consistent := hlinked.1
      grows := hlinked.2
      structures := rfl
      switchEnds := rfl
      whileEnd := rfl
      whileEnds := rfl }

theorem case_line (hc : Usual c) (hb : c.blocks.Consistent) {e : Expr}
    (h : line (headed .caseOf e.chars) c = .ok () c₁) : Usual c₁ ∧ c₁.blocks.Consistent := by
  obtain ⟨_, _, o, rest, ho, hs, _, he, rfl⟩ := (line_case_eq_ok_iff hc e).1 h
  have hcase := continues_case hc hb ho hs he
  exact ⟨hcase.usual, hcase.consistent⟩

theorem clausesCompiled_case (hc : Usual c) (hb : c.blocks.Consistent) {e : Expr} {body : Block}
    {clauses : Clauses} {o : OpenBlock} {rest : List OpenBlock}
    (ho : c.blocks.opened = o :: rest) (hcase : line (headed .caseOf e.chars) c = .ok () c₁)
    (hbody : Compiled c₁ c₂ fun k depth start finish exit leave =>
      body.At k depth start finish exit leave)
    (hclauses : ∀ o rest, c₂.blocks.opened = o :: rest → ClausesCompiled c₂ c' o rest clauses) :
    ClausesCompiled c c' o rest (.case e body clauses) := by
  obtain ⟨_, _, o', rest', ho', hs, _, he, rfl⟩ := (line_case_eq_ok_iff hc e).1 hcase
  obtain ⟨rfl, rfl⟩ := List.cons.inj (ho.symm.trans ho')
  have htest := continues_case hc hb ho hs he
  obtain ⟨ps, h₂, ho₂, hps⟩ := hbody
  obtain ⟨qs, steps, h₃, ho₃, hqs⟩ := hclauses ⟨o.number, o.steps + 1⟩ rest ho₂
  have hfront := htest.trans h₂
  refine ⟨_, steps, hfront.trans h₃, ho₃, ?_⟩
  intro b exit leave hb' hleads hstep
  have hhere := Compiler.address?_blockLinked c .caseOf o rest
  have hbody := hps b exit leave (h₃.grows.trans hb') (hleads.continue htest)
  obtain ⟨hn, hrest⟩ := hqs b exit leave hb' (hleads.continue hfront) hstep
  rw [hfront.switchEnds] at hrest
  rw [htest.switchEnds] at hbody
  have hparts := Places.append hfront.writes
    (Places.append htest.writes (places_unlessCase hn htest.writes) hbody) hrest
  simp only [Clauses.At]
  refine ⟨hb' _ _ (h₃.grows _ _ (h₂.grows _ _ hhere)), hparts.mono ?_⟩
  rintro k ⟨⟨htest, hb⟩, ho⟩
  exact ⟨_, _, htest, hb, ho⟩

/-- Behind the line that opens the default clause. -/
theorem continues_default (hc : Usual c) (hb : c.blocks.Consistent) {o : OpenBlock}
    {rest : List OpenBlock} (ho : c.blocks.opened = o :: rest) (hs : o.steps ≠ 255) :
    Continues c [] ((c.blockLinked .default o rest).withCase true) := by
  have hlinked := Compiler.blockLinked_blocks hb .default ho hs
  exact
    { writes := .none rfl rfl
      usual := (hc.blockLinked .default o rest).withCase true
      consistent := hlinked.1
      grows := hlinked.2
      structures := rfl
      switchEnds := rfl
      whileEnd := rfl
      whileEnds := rfl }

theorem default_line (hc : Usual c) (hb : c.blocks.Consistent)
    (h : line (alone .default) c = .ok () c₁) : Usual c₁ ∧ c₁.blocks.Consistent := by
  obtain ⟨_, _, o, rest, ho, hs, rfl⟩ := (line_default_eq_ok_iff hc).1 h
  have hdefault := continues_default hc hb ho hs
  exact ⟨hdefault.usual, hdefault.consistent⟩

theorem clausesCompiled_default (hc : Usual c) (hb : c.blocks.Consistent) {body : Block}
    {clauses : Clauses} {o : OpenBlock} {rest : List OpenBlock}
    (ho : c.blocks.opened = o :: rest) (hdefault : line (alone .default) c = .ok () c₁)
    (hbody : Compiled c₁ c₂ fun k depth start finish exit leave =>
      body.At k depth start finish exit leave)
    (hclauses : ∀ o rest, c₂.blocks.opened = o :: rest → ClausesCompiled c₂ c' o rest clauses) :
    ClausesCompiled c c' o rest (.default body clauses) := by
  obtain ⟨_, _, o', rest', ho', hs, rfl⟩ := (line_default_eq_ok_iff hc).1 hdefault
  obtain ⟨rfl, rfl⟩ := List.cons.inj (ho.symm.trans ho')
  have h₁ := continues_default hc hb ho hs
  obtain ⟨ps, h₂, ho₂, hps⟩ := hbody
  obtain ⟨qs, steps, h₃, ho₃, hqs⟩ := hclauses ⟨o.number, o.steps + 1⟩ rest ho₂
  have hfront := h₁.trans h₂
  refine ⟨_, steps, hfront.trans h₃, ho₃, ?_⟩
  intro b exit leave hb' hleads hstep
  have hhere := Compiler.address?_blockLinked c .default o rest
  have hbody := hps b exit leave (h₃.grows.trans hb') (hleads.continue h₁)
  obtain ⟨_, hrest⟩ := hqs b exit leave hb' (hleads.continue hfront) hstep
  rw [hfront.switchEnds] at hrest
  rw [h₁.switchEnds] at hbody
  have hparts := Places.append hfront.writes hbody hrest
  simp only [Clauses.At]
  refine ⟨hb' _ _ (h₃.grows _ _ (h₂.grows _ _ hhere)), hparts.mono ?_⟩
  rintro k ⟨hb, ho⟩
  exact ⟨_, hb, ho⟩

/-- The two instructions that open a choice. -/
theorem writes_chooseEntered {e : Expr} (symbols : Symbols) (counts : List Nat) (depth : Nat)
    (he : e.tree.Legible) :
    c.Writes [.plain (.push caseName), .plain (.assign .mov caseName e.tree)]
      (chooseEntered (c.blockOpened .choose)
        ([Instruction.push caseName, .assign .mov caseName e.tree].flatMap Instruction.items)
        symbols ⟨c.blocks.allocated, .finish⟩ counts depth) := by
  have hall : ∀ i ∈ [Instruction.push caseName, .assign .mov caseName e.tree],
      i.Legible ∧ i.dest? = none := by
    intro i hi
    rcases List.mem_cons.1 hi with rfl | hi
    · exact ⟨rfl, rfl⟩
    · obtain rfl := List.mem_singleton.1 hi
      exact ⟨⟨rfl, he⟩, rfl⟩
  exact .instructions hall (Program.toList_writeAll _ _) rfl

/-- Two instructions one behind the other. -/
theorem places_pair {b : Blocks} {i j : Instruction} (hw : c.Writes [.plain i, .plain j] c') :
    Places b c.program.position [.plain i, .plain j] fun k =>
      ∃ q, k.Has c.program.position i q ∧ k.Has q j c'.program.position where
  labelled := fun _ hl => (List.not_mem_nil hl).elim
  stands := by
    intro k _ hplan
    have hsplit : k.HoldsPlan b c.program.position ([.plain i] ++ [.plain j]) := hplan
    obtain ⟨hi, hj⟩ := Code.holdsPlan_append_iff.1 hsplit
    have hposition : c'.program.position =
        c.program.position + Plan.size [.plain i] + Plan.size [.plain j] := by
      rw [hw.position, Nat.add_assoc]
      rfl
    rw [hposition]
    exact ⟨_, hi.has (hw.legible _ (by simp)), hj.has (hw.legible _ (by simp))⟩

theorem caseName_ne_spelling (w : Word) : caseName ≠ w.spelling := by
  cases w <;> decide

/-- Behind the line that opens a choice the names are usual and the blocks
consistent. -/
theorem choose_line (hc : Usual c) (hb : c.blocks.Consistent) {e : Expr}
    (h : line (headed .choose e.chars) c = .ok () c₁) : Usual c₁ ∧ c₁.blocks.Consistent := by
  obtain ⟨symbols, counts, depth, hsymbols, hlt, _, he, rfl⟩ := of_line_choose_eq_ok hc h
  refine ⟨?_, (Compiler.blockOpened_blocks hb .choose hlt).1⟩
  rcases hsymbols with rfl | rfl
  · exact hc.of_sameNames ⟨rfl, rfl⟩
  · exact (hc.insert caseName_ne_spelling).of_sameNames ⟨rfl, rfl⟩

theorem compiled_choose (hc : Usual c) (hb : c.blocks.Consistent) {e : Expr} {clauses : Clauses}
    (hchoose : line (headed .choose e.chars) c = .ok () c₁)
    (hclauses : ∀ o rest, c₁.blocks.opened = o :: rest → ClausesCompiled c₁ c₂ o rest clauses)
    (hend : line (alone .endChoose) c₂ = .ok () c') :
    Compiled c c' fun k depth start finish exit leave =>
      (Stmt.choose e clauses).At k depth start finish exit leave := by
  obtain ⟨symbols, counts, depth, hsymbols, hlt, hsize, he, rfl⟩ := of_line_choose_eq_ok hc hchoose
  have hopened := Compiler.blockOpened_blocks hb .choose hlt
  obtain ⟨ps, steps, h₂, ho₂, hps⟩ := hclauses ⟨c.blocks.allocated, 0⟩ c.blocks.opened rfl
  obtain ⟨_, _, o, rest, _, ho, hs, _, _, rfl⟩ := (line_endChoose_eq_ok_iff h₂.usual).1 hend
  obtain ⟨rfl, rfl⟩ := List.cons.inj (ho₂.symm.trans ho)
  have hleft := Compiler.blockLeft_blocks h₂.consistent .endChoose ho hs
  have hw := writes_chooseEntered (c := c) symbols counts depth (Expr.legible he)
  have hpop : c₂.Writes [.plain (.pop caseName)] (chooseLeft { c₂.blockLeft .endChoose
      ⟨c.blocks.allocated, steps⟩ c.blocks.opened with
      switchEnds := { c₂.switchEnds with items := c₂.switchEnds.items.pop } }) := by
    have hsame : c₂.Writes [] { c₂.blockLeft .endChoose ⟨c.blocks.allocated, steps⟩
        c.blocks.opened with
        switchEnds := { c₂.switchEnds with items := c₂.switchEnds.items.pop } } := .none rfl rfl
    exact (hsame.trans (writes_plain (i := .pop caseName) ⟨rfl, rfl⟩)).same rfl rfl
  have hwrites := (hw.trans h₂.writes).trans hpop
  have hcontinues : Continues c _ (chooseLeft { c₂.blockLeft .endChoose
      ⟨c.blocks.allocated, steps⟩ c.blocks.opened with
      switchEnds := { c₂.switchEnds with items := c₂.switchEnds.items.pop } }) :=
    { writes := hwrites
      usual := h₂.usual.of_sameNames ⟨rfl, rfl⟩
      consistent := hleft.1
      grows := (hopened.2.trans h₂.grows).trans hleft.2
      structures := stack_pop h₂.structures
      switchEnds := stack_pop h₂.switchEnds
      whileEnd := h₂.whileEnd
      whileEnds := h₂.whileEnds }
  refine ⟨_, hcontinues, rfl, ?_⟩
  intro b exit leave hb' hleads
  obtain ⟨hstep, hfinish⟩ := Compiler.address?_blockLeft c₂ .endChoose
    ⟨c.blocks.allocated, steps⟩ c.blocks.opened
  have hleads₁ : Leads (chooseEntered (c.blockOpened .choose)
      ([Instruction.push caseName, .assign .mov caseName e.tree].flatMap Instruction.items)
      symbols ⟨c.blocks.allocated, .finish⟩ counts depth) b exit c₂.program.position := by
    refine ⟨hleads.exit, ?_⟩
    intro m hm
    have htop : some (⟨c.blocks.allocated, .finish⟩ : Label) = some m :=
      (Stack.top?_push c.switchEnds _).symm.trans hm
    obtain rfl := Option.some.inj htop
    exact hb' _ _ hfinish
  obtain ⟨_, hclauses⟩ := hps b exit _ (hleft.2.trans hb') hleads₁ (hb' _ _ hstep)
  have hdepth : (chooseEntered (c.blockOpened .choose)
      ([Instruction.push caseName, .assign .mov caseName e.tree].flatMap Instruction.items)
      symbols ⟨c.blocks.allocated, .finish⟩ counts depth).switchEnds.size = c.switchEnds.size + 1 :=
    Array.size_push _
  rw [hdepth] at hclauses
  have hparts := Places.append (hw.trans h₂.writes) (Places.append hw (places_pair hw) hclauses)
    (places_plain hpop)
  simp only [Stmt.At]
  refine hparts.mono ?_
  rintro k ⟨⟨⟨q, hpush, hmov⟩, hclauses⟩, hpop⟩
  exact ⟨hsize, q, _, _, hpush, hmov, hclauses, hpop⟩

end

/-! ## Scripts -/

mutual

/-- A statement whose lines are accepted. -/
theorem Stmt.compiled {c c' : Compiler} (hc : Usual c) (hb : c.blocks.Consistent) :
    ∀ {a : Stmt}, Takes c a.lines c' → Compiled c c' fun k depth start finish exit leave =>
      a.At k depth start finish exit leave
  | .declare x none, h => compiled_declare hc hb (takes_singleton_iff.1 h)
  | .declare x (some change), h => compiled_declareAssign hc hb (takes_singleton_iff.1 h)
  | .assign x change, h => compiled_assign hc hb (takes_singleton_iff.1 h)
  | .exit, h => compiled_exit hc hb (takes_singleton_iff.1 h)
  | .leave, h => compiled_leave hc hb (takes_singleton_iff.1 h)
  | .branch test body others, h => by
    obtain ⟨c₁, hif, h⟩ := takes_cons_iff.1 h
    obtain ⟨c₃, h, hend⟩ := takes_append_iff.1 h
    obtain ⟨c₂, hbody, hothers⟩ := takes_append_iff.1 h
    obtain ⟨hc₁, hb₁⟩ := if_line hc hb hif
    have hbody := Block.compiled hc₁ hb₁ hbody
    obtain ⟨ps, h₂, ho₂, hps⟩ := hbody
    exact compiled_branch hc hb hif ⟨ps, h₂, ho₂, hps⟩
      (fun o rest ho => Branches.compiled h₂.usual h₂.consistent ho hothers)
      (takes_singleton_iff.1 hend)
  | .loop test body, h => by
    obtain ⟨c₁, hwhile, h⟩ := takes_cons_iff.1 h
    obtain ⟨c₂, hbody, hend⟩ := takes_append_iff.1 h
    obtain ⟨hc₁, hb₁⟩ := while_line hc hb hwhile
    exact compiled_loop hc hb hwhile (Block.compiled hc₁ hb₁ hbody) (takes_singleton_iff.1 hend)
  | .choose value clauses, h => by
    obtain ⟨c₁, hchoose, h⟩ := takes_cons_iff.1 h
    obtain ⟨c₂, hclauses, hend⟩ := takes_append_iff.1 h
    obtain ⟨hc₁, hb₁⟩ := choose_line hc hb hchoose
    exact compiled_choose hc hb hchoose
      (fun o rest ho => Clauses.compiled hc₁ hb₁ ho hclauses) (takes_singleton_iff.1 hend)

/-- A block whose lines are accepted. -/
theorem Block.compiled {c c' : Compiler} (hc : Usual c) (hb : c.blocks.Consistent) :
    ∀ {a : Block}, Takes c a.lines c' → Compiled c c' fun k depth start finish exit leave =>
      a.At k depth start finish exit leave
  | .nil, h => by
    obtain rfl := takes_nil_iff.1 h
    refine ⟨[], ⟨.refl _, hc, hb, .refl _, rfl, rfl, rfl, rfl⟩, rfl, ?_⟩
    intro b exit leave _ _
    exact places_nil fun _ => rfl
  | .cons a rest, h => by
    obtain ⟨d, ha, hrest⟩ := takes_append_iff.1 h
    obtain ⟨ps, h₁, ho₁, hps⟩ := Stmt.compiled hc hb ha
    obtain ⟨qs, h₂, ho₂, hqs⟩ := Block.compiled h₁.usual h₁.consistent hrest
    refine ⟨_, h₁.trans h₂, ho₂.trans ho₁, ?_⟩
    intro b exit leave hb' hleads
    have hfirst := hps b exit leave (h₂.grows.trans hb') hleads
    have hsecond := hqs b exit leave hb' (hleads.continue h₁)
    rw [h₁.switchEnds] at hsecond
    simp only [Block.At]
    refine (Places.append h₁.writes hfirst hsecond).mono ?_
    rintro k ⟨ha, hrest⟩
    exact ⟨_, ha, hrest⟩

/-- Further branches whose lines are accepted. -/
theorem Branches.compiled {c c' : Compiler} (hc : Usual c) (hb : c.blocks.Consistent)
    {o : OpenBlock} {rest : List OpenBlock} (ho : c.blocks.opened = o :: rest) :
    ∀ {a : Branches}, Takes c a.lines c' → BranchesCompiled c c' o rest a
  | .nil, h => by
    obtain rfl := takes_nil_iff.1 h
    exact branchesCompiled_nil hc hb ho
  | .otherwise body, h => by
    obtain ⟨c₁, helse, hbody⟩ := takes_cons_iff.1 h
    obtain ⟨hc₁, hb₁⟩ := else_line hc hb helse
    exact branchesCompiled_otherwise hc hb ho helse (Block.compiled hc₁ hb₁ hbody)
  | .also test body others, h => by
    obtain ⟨c₁, hif, h⟩ := takes_cons_iff.1 h
    obtain ⟨c₂, hbody, hothers⟩ := takes_append_iff.1 h
    obtain ⟨hc₁, hb₁⟩ := elseIf_line hc hb hif
    obtain ⟨ps, h₂, ho₂, hps⟩ := Block.compiled hc₁ hb₁ hbody
    exact branchesCompiled_also hc hb ho hif ⟨ps, h₂, ho₂, hps⟩
      fun o rest ho => Branches.compiled h₂.usual h₂.consistent ho hothers

/-- Clauses whose lines are accepted. -/
theorem Clauses.compiled {c c' : Compiler} (hc : Usual c) (hb : c.blocks.Consistent)
    {o : OpenBlock} {rest : List OpenBlock} (ho : c.blocks.opened = o :: rest) :
    ∀ {a : Clauses}, Takes c a.lines c' → ClausesCompiled c c' o rest a
  | .nil, h => by
    obtain rfl := takes_nil_iff.1 h
    exact clausesCompiled_nil hc hb ho
  | .case value body clauses, h => by
    obtain ⟨c₁, hcase, h⟩ := takes_cons_iff.1 h
    obtain ⟨c₂, hbody, hclauses⟩ := takes_append_iff.1 h
    obtain ⟨hc₁, hb₁⟩ := case_line hc hb hcase
    obtain ⟨ps, h₂, ho₂, hps⟩ := Block.compiled hc₁ hb₁ hbody
    exact clausesCompiled_case hc hb ho hcase ⟨ps, h₂, ho₂, hps⟩
      fun o rest ho => Clauses.compiled h₂.usual h₂.consistent ho hclauses
  | .default body clauses, h => by
    obtain ⟨c₁, hdefault, h⟩ := takes_cons_iff.1 h
    obtain ⟨c₂, hbody, hclauses⟩ := takes_append_iff.1 h
    obtain ⟨hc₁, hb₁⟩ := default_line hc hb hdefault
    obtain ⟨ps, h₂, ho₂, hps⟩ := Block.compiled hc₁ hb₁ hbody
    exact clausesCompiled_default hc hb ho hdefault ⟨ps, h₂, ho₂, hps⟩
      fun o rest ho => Clauses.compiled h₂.usual h₂.consistent ho hclauses

end

end Structured

end ScriptMachine
