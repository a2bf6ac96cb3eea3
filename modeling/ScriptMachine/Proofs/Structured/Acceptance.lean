/-
  ScriptMachine.Proofs.Structured.Acceptance

  Which structured scripts are accepted.  A script without choices is accepted when
  every variable is declared above its uses, every exit stands in a loop, every
  name fits the stream, and the script keeps the limits of the compiler: the steps
  of a block, the number of blocks and their nesting (`Block.compiles`).
-/

import ScriptMachine.Proofs.Structured.Correctness

namespace ScriptMachine.Structured

open Compile

-- comparing two states should never run the writing of the program
attribute [local irreducible] Program.write

/-! ## Variables in the order of the text

What follows looks at scripts without choices; it does not look into a choice. -/

/-- The variable of a term, if it is one, is among the known ones. -/
def Term.declared (known : List String) : Term → Bool
  | var x => known.contains x.text
  | number _ | text _ => true

/-- The variables of an expression are among the known ones. -/
def Expr.declared (known : List String) : Expr → Bool
  | last a => a.declared known
  | more a _ rest => a.declared known && rest.declared known

/-- The variables that an assignment reads are among the known ones. -/
def Change.declared (known : List String) : Change → Bool
  | store _ e => e.declared known
  | increment | decrement => true

mutual

/-- The variables that a statement declares, the last one first. -/
def Stmt.declares : Stmt → List String
  | .declare x _ => [x.text]
  | .assign .. | .exit | .choose .. | .leave => []
  | .branch _ body others => others.declares ++ body.declares
  | .loop _ body => body.declares

/-- The variables that a block declares. -/
def Block.declares : Block → List String
  | .nil => []
  | .cons s rest => rest.declares ++ s.declares

/-- The variables that branches declare. -/
def Branches.declares : Branches → List String
  | .nil => []
  | .otherwise body => body.declares
  | .also _ body others => others.declares ++ body.declares

end

mutual

/-- Every variable that the statement uses is known before it or declared in it,
above its use. -/
def Stmt.declared (known : List String) : Stmt → Bool
  | .declare _ none | .exit | .choose .. | .leave => true
  | .declare x (some change) => change.declared (x.text :: known)
  | .assign x change => known.contains x.text && change.declared known
  | .branch test body others => test.declared known &&
      (body.declared known && others.declared (body.declares ++ known))
  | .loop test body => test.declared known && body.declared known

/-- Every variable of the block is declared above its use. -/
def Block.declared (known : List String) : Block → Bool
  | .nil => true
  | .cons s rest => s.declared known && rest.declared (s.declares ++ known)

/-- Every variable of the branches is declared above its use. -/
def Branches.declared (known : List String) : Branches → Bool
  | .nil => true
  | .otherwise body => body.declared known
  | .also test body others => test.declared known &&
      (body.declared known && others.declared (body.declares ++ known))

end

/-! ## Limits -/

mutual

/-- No choice stands in the statement. -/
def Stmt.choiceless : Stmt → Bool
  | .declare .. | .assign .. | .exit => true
  | .branch _ body others => body.choiceless && others.choiceless
  | .loop _ body => body.choiceless
  | .choose .. | .leave => false

/-- No choice stands in the block. -/
def Block.choiceless : Block → Bool
  | .nil => true
  | .cons s rest => s.choiceless && rest.choiceless

/-- No choice stands in the branches. -/
def Branches.choiceless : Branches → Bool
  | .nil => true
  | .otherwise body => body.choiceless
  | .also _ body others => body.choiceless && others.choiceless

end

mutual

/-- The number of ladders and loops of a statement. -/
def Stmt.blocks : Stmt → Nat
  | .declare .. | .assign .. | .exit | .choose .. | .leave => 0
  | .branch _ body others => body.blocks + others.blocks + 1
  | .loop _ body => body.blocks + 1

/-- The number of ladders and loops of a block. -/
def Block.blocks : Block → Nat
  | .nil => 0
  | .cons s rest => s.blocks + rest.blocks

/-- The number of ladders and loops inside branches. -/
def Branches.blocks : Branches → Nat
  | .nil => 0
  | .otherwise body => body.blocks
  | .also _ body others => body.blocks + others.blocks

end

mutual

/-- How deep the structures of a statement are nested. -/
def Stmt.nesting : Stmt → Nat
  | .declare .. | .assign .. | .exit | .choose .. | .leave => 0
  | .branch _ body others => max body.nesting others.nesting + 1
  | .loop _ body => body.nesting + 1

/-- How deep the structures of a block are nested. -/
def Block.nesting : Block → Nat
  | .nil => 0
  | .cons s rest => max s.nesting rest.nesting

/-- How deep the structures inside branches are nested. -/
def Branches.nesting : Branches → Nat
  | .nil => 0
  | .otherwise body => body.nesting
  | .also _ body others => max body.nesting others.nesting

end

/-- The number of branches behind the first one. -/
def Branches.length : Branches → Nat
  | .nil => 0
  | .otherwise _ => 1
  | .also _ _ others => others.length + 1

mutual

/-- The largest number of steps that a block of the statement takes: one where it
ends, and one for each further branch. -/
def Stmt.steps : Stmt → Nat
  | .declare .. | .assign .. | .exit | .choose .. | .leave => 0
  | .branch _ body others => max (others.length + 1) (max body.steps others.steps)
  | .loop _ body => max 1 body.steps

/-- The largest number of steps in the block. -/
def Block.steps : Block → Nat
  | .nil => 0
  | .cons s rest => max s.steps rest.steps

/-- The largest number of steps inside the branches. -/
def Branches.steps : Branches → Nat
  | .nil => 0
  | .otherwise body => body.steps
  | .also _ body others => max body.steps others.steps

end

/-! ## Parts that can be accepted -/

/-- What a part of a script without choices needs to be accepted: no choice in it,
every exit in a loop, every variable declared, no block with too many steps, and no
name that is too long. -/
structure Acceptable (choiceless exits declared : Bool) (steps : Nat) (names : List String) :
    Prop where
  choiceless : choiceless = true
  exits : exits = true
  declared : declared = true
  steps : steps ≤ 255
  names : ∀ x ∈ names, Item.textFits x = true

/-- The statement can be accepted where `known` are the variables declared above it
and `looped` tells whether there is a loop around it. -/
abbrev Stmt.Acceptable (s : Stmt) (known : List String) (looped : Bool) : Prop :=
  Structured.Acceptable s.choiceless (s.scoped looped) (s.declared known) s.steps s.variables

/-- The block can be accepted. -/
abbrev Block.Acceptable (b : Block) (known : List String) (looped : Bool) : Prop :=
  Structured.Acceptable b.choiceless (b.scoped looped) (b.declared known) b.steps b.variables

/-- The branches can be accepted. -/
abbrev Branches.Acceptable (b : Branches) (known : List String) (looped : Bool) : Prop :=
  Structured.Acceptable b.choiceless (b.scoped looped) (b.declared known) b.steps b.variables

section
variable {p₁ p₂ s₁ s₂ d₁ d₂ : Bool} {n₁ n₂ : Nat} {v₁ v₂ : List String}

/-- Two parts one behind the other. -/
theorem Acceptable.split
    (h : Acceptable (p₁ && p₂) (s₁ && s₂) (d₁ && d₂) (max n₁ n₂) (v₁ ++ v₂)) :
    Acceptable p₁ s₁ d₁ n₁ v₁ ∧ Acceptable p₂ s₂ d₂ n₂ v₂ := by
  obtain ⟨hp, hs, hd, hn, hv⟩ := h
  rw [Bool.and_eq_true] at hp hs hd
  refine ⟨⟨hp.1, hs.1, hd.1, by omega, ?_⟩, hp.2, hs.2, hd.2, by omega, ?_⟩
  · intro x hx
    exact hv x (List.mem_append_left _ hx)
  · intro x hx
    exact hv x (List.mem_append_right _ hx)

/-- A part behind a condition. -/
theorem Acceptable.test (h : Acceptable p₁ s₁ (d₁ && d₂) n₁ v₁) :
    d₁ = true ∧ Acceptable p₁ s₁ d₂ n₁ v₁ := by
  have hd := h.declared
  rw [Bool.and_eq_true] at hd
  exact ⟨hd.1, h.choiceless, h.exits, hd.2, h.steps, h.names⟩

/-- A part inside a block that takes steps of its own. -/
theorem Acceptable.inner (h : Acceptable p₁ s₁ d₁ (max n₁ n₂) v₁) :
    n₁ ≤ 255 ∧ Acceptable p₁ s₁ d₁ n₂ v₁ := by
  have hn := h.steps
  exact ⟨by omega, h.choiceless, h.exits, h.declared, by omega, h.names⟩

end

/-! ## States that take a part in -/

/-- The compiler can take in a part with so many blocks, nested so deep: `known` are
the variables declared above it, and `looped` tells whether there is a loop around
it. -/
structure Room (c : Compiler) (known : List String) (looped : Bool) (blocks nesting : Nat) :
    Prop where
  usual : Usual c
  consistent : c.blocks.Consistent
  known : ∀ x : Name, x.text ∈ known → x.Known c.symbols
  outside : c.structures.top? ≠ some .choose
  looped : looped = true → c.whileEnd.isSome = true
  blocks : c.blocks.allocated + blocks ≤ c.blocks.limit
  structures : c.structures.size + nesting ≤ Stack.limit
  loops : c.whileEnds.size + nesting ≤ Stack.limit

/-- The compiler has taken a part in: it knows these variables and has opened so
many blocks more. -/
structure Grown (c c' : Compiler) (known : List String) (blocks : Nat) : Prop where
  known : ∀ x : Name, x.text ∈ known → x.Known c'.symbols
  allocated : c'.blocks.allocated = c.blocks.allocated + blocks
  limit : c'.blocks.limit = c.blocks.limit

section
variable {c c' d : Compiler} {known known' : List String} {looped : Bool} {n k j : Nat}

theorem Room.checkSwitch (h : Room c known looped n k) (w : Word) :
    c.checkSwitch (some w) = .ok () :=
  if_pos (.inr h.outside)

theorem Room.mono (h : Room c known looped n k) {n' k' : Nat} (hn : n' ≤ n) (hk : k' ≤ k) :
    Room c known looped n' k' := by
  obtain ⟨hu, hb, hv, ho, hl, hn', hs, hw⟩ := h
  exact ⟨hu, hb, hv, ho, hl, by omega, by omega, by omega⟩

/-- The room behind a part. -/
theorem Room.after (h : Room c known looped (n + j) k) {ps : Plan} (hc : Continues c ps c')
    (hg : Grown c c' known' n) : Room c' known' looped j k where
  usual := hc.usual
  consistent := hc.consistent
  known := hg.known
  outside := by rw [hc.structures]; exact h.outside
  looped := by rw [hc.whileEnd]; exact h.looped
  blocks := by
    have := h.blocks
    rw [hg.allocated, hg.limit]
    omega
  structures := by rw [hc.structures]; exact h.structures
  loops := by rw [hc.whileEnds]; exact h.loops

theorem Grown.trans (h : Grown c c' known n) (h' : Grown c' d known' j) :
    Grown c d known' (n + j) where
  known := h'.known
  allocated := by rw [h'.allocated, h.allocated, Nat.add_assoc]
  limit := h'.limit.trans h.limit

/-- A change that leaves the names and opens no block. -/
theorem Grown.same (h : Grown c c' known n) (hs : d.symbols = c'.symbols)
    (ha : d.blocks.allocated = c'.blocks.allocated) (hl : d.blocks.limit = c'.blocks.limit) :
    Grown c d known n where
  known := by rw [hs]; exact h.known
  allocated := ha.trans h.allocated
  limit := hl.trans h.limit

end

/-! ## Known variables -/

section
variable {known : List String} {t : Symbols}
  (h : ∀ x : Name, x.text ∈ known → x.Known t)
include h

theorem Expr.known_of_declared {e : Expr} (he : e.declared known = true) : e.Known t := by
  have hterm : ∀ a : Term, a.declared known = true → a.Known t := by
    intro a ha
    cases a with
    | number d => trivial
    | text q => trivial
    | var x => exact h x (by simpa [Term.declared] using ha)
  induction e with
  | last a => exact hterm a he
  | more a sign rest ih =>
    rw [Expr.declared, Bool.and_eq_true] at he
    exact ⟨hterm a he.1, ih he.2⟩

theorem Change.known_of_declared {change : Change} (hc : change.declared known = true) :
    change.Known t := by
  cases change with
  | store how e => exact Expr.known_of_declared h hc
  | increment => trivial
  | decrement => trivial

/-- A variable that is declared is known from then on. -/
theorem known_insert {x : Name} (hx : Item.textFits x.text = true) :
    ∀ y : Name, y.text ∈ x.text :: known → y.Known (t.insert x.text .var) := by
  intro y hy
  by_cases heq : x.text = y.text
  · refine ⟨?_, heq ▸ hx⟩
    rw [Symbols.get?_insert, if_pos heq]
  · obtain ⟨hvar, hfits⟩ := h y ((List.mem_cons.1 hy).resolve_left (Ne.symm heq))
    refine ⟨?_, hfits⟩
    rw [Symbols.get?_insert, if_neg heq]
    exact hvar

end

/-! ## Lines that are accepted -/

section
variable {c : Compiler} {known : List String} {looped : Bool} {n k : Nat}

theorem Stmt.accepted_declare (h : Room c known looped n k) {x : Name}
    (hx : Item.textFits x.text = true) :
    ∃ c', Takes c (Stmt.declare x none).lines c' ∧ Grown c c' (x.text :: known) 0 := by
  have hline := (line_declare_eq_ok_iff h.usual x).2 ⟨h.checkSwitch .var, rfl⟩
  exact ⟨_, takes_singleton_iff.2 hline, known_insert h.known hx, rfl, rfl⟩

theorem Stmt.accepted_declareAssign (h : Room c known looped n k) {x : Name} {change : Change}
    (hx : Item.textFits x.text = true) (hchange : change.declared (x.text :: known) = true) :
    ∃ c', Takes c (Stmt.declare x (some change)).lines c' ∧ Grown c c' (x.text :: known) 0 := by
  have hknown := known_insert h.known hx
  have hline := (line_declareAssign_eq_ok_iff h.usual x change).2
    ⟨h.checkSwitch .var, hx, Change.known_of_declared hknown hchange, rfl⟩
  exact ⟨_, takes_singleton_iff.2 hline, hknown, rfl, rfl⟩

theorem Stmt.accepted_assign (h : Room c known looped n k) {x : Name} {change : Change}
    (hx : known.contains x.text = true) (hchange : change.declared known = true) :
    ∃ c', Takes c (Stmt.assign x change).lines c' ∧ Grown c c' known 0 := by
  have hline := (line_assign_eq_ok_iff h.usual x change).2
    ⟨h.known x (by simpa using hx), Change.known_of_declared h.known hchange, rfl⟩
  exact ⟨_, takes_singleton_iff.2 hline, h.known, rfl, rfl⟩

theorem Stmt.accepted_exit (h : Room c known true n k) :
    ∃ c', Takes c Stmt.exit.lines c' ∧ Grown c c' known 0 := by
  obtain ⟨l, hl⟩ := Option.isSome_iff_exists.1 (h.looped rfl)
  have hline := (line_exit_eq_ok_iff h.usual).2 ⟨h.checkSwitch .exitWhile, l, hl, rfl⟩
  exact ⟨_, takes_singleton_iff.2 hline, h.known, rfl, rfl⟩

/-- The line that opens a ladder, and the room inside it. -/
theorem Room.enterIf (h : Room c known looped (n + 1) (k + 1)) {e : Expr}
    (he : e.declared known = true) :
    line (headed .ifThen e.chars) c = .ok () (ifState c e) ∧
      Room (ifState c e) known looped n k := by
  have hblocks := h.blocks
  have hstructures := h.structures
  have hloops := h.loops
  have hline := (line_if_eq_ok_iff h.usual e).2
    ⟨h.checkSwitch .ifThen, by omega, by omega, Expr.known_of_declared h.known he, rfl⟩
  obtain ⟨husual, hconsistent⟩ := if_line h.usual h.consistent hline
  have hallocated : (ifState c e).blocks.allocated = c.blocks.allocated + 1 := rfl
  have hlimit : (ifState c e).blocks.limit = c.blocks.limit := rfl
  have hsize : (ifState c e).structures.size = c.structures.size + 1 := Array.size_push _
  have hwhile : (ifState c e).whileEnds = c.whileEnds := rfl
  refine ⟨hline, husual, hconsistent, h.known, ?_, h.looped, ?_, ?_, ?_⟩
  · rw [show (ifState c e).structures.top? = some .ifThen from Stack.top?_push _ _]
    decide
  · omega
  · omega
  · rw [hwhile]
    omega

/-- The line that opens a loop, and the room inside it. -/
theorem Room.enterWhile (h : Room c known looped (n + 1) (k + 1)) {e : Expr}
    (he : e.declared known = true) :
    line (headed .whileDo e.chars) c = .ok () (whileState c e) ∧
      Room (whileState c e) known true n k := by
  have hblocks := h.blocks
  have hstructures := h.structures
  have hloops := h.loops
  have hline := (line_while_eq_ok_iff h.usual e).2
    ⟨h.checkSwitch .whileDo, by omega, by omega, by omega, Expr.known_of_declared h.known he, rfl⟩
  obtain ⟨husual, hconsistent⟩ := while_line h.usual h.consistent hline
  have hallocated : (whileState c e).blocks.allocated = c.blocks.allocated + 1 := rfl
  have hlimit : (whileState c e).blocks.limit = c.blocks.limit := rfl
  have hsize : (whileState c e).structures.size = c.structures.size + 1 := Array.size_push _
  have hwhile : (whileState c e).whileEnds.size = c.whileEnds.size + 1 := Array.size_push _
  refine ⟨hline, husual, hconsistent, h.known, ?_, fun _ => rfl, ?_, ?_, ?_⟩
  · rw [show (whileState c e).structures.top? = some .whileDo from Stack.top?_push _ _]
    decide
  · omega
  · omega
  · omega

end

section
variable {c c₁ c₂ c₃ : Compiler} {known inside behind : List String} {looped : Bool} {n j k : Nat}

/-- A loop around a body that is accepted. -/
theorem accepted_loop (h : Room c known looped (n + 1) (k + 1)) {e : Expr} {body : Block}
    (he : e.declared known = true) (hbody : Takes (whileState c e) body.lines c₂)
    (hgrown : Grown (whileState c e) c₂ inside n) :
    ∃ c', Takes c (Stmt.loop e body).lines c' ∧ Grown c c' inside (n + 1) := by
  obtain ⟨hwhile, hroom⟩ := h.enterWhile he
  obtain ⟨ps, hcont, ho, _⟩ := Block.compiled hroom.usual hroom.consistent hbody
  have hroom₂ := Room.after (j := 0) hroom hcont hgrown
  have htop : c₂.structures.top? = some .whileDo := by
    rw [hcont.structures]
    exact Stack.top?_push _ _
  have hends : c₂.whileEnds.top? = some c.whileEnd := by
    rw [hcont.whileEnds]
    exact Stack.top?_push _ _
  have hend := (line_endWhile_eq_ok_iff hcont.usual).2
    ⟨hroom₂.checkSwitch .endWhile, htop, _, _, _, ho, zero_ne_255, hends, rfl⟩
  refine ⟨_, takes_cons_iff.2 ⟨_, hwhile, takes_append_iff.2 ⟨_, hbody,
    takes_singleton_iff.2 hend⟩⟩, hgrown.known, ?_, hgrown.limit⟩
  have hallocated : c₂.blocks.allocated = c.blocks.allocated + 1 + n := hgrown.allocated
  show c₂.blocks.allocated = _
  omega

/-- A ladder around branches that are accepted. -/
theorem accepted_branch (h : Room c known looped (n + j + 1) (k + 1)) {e : Expr} {body : Block}
    {others : Branches} (he : e.declared known = true)
    (hbody : Takes (ifState c e) body.lines c₂) (hgrown : Grown (ifState c e) c₂ inside n)
    (hothers : Takes c₂ others.lines c₃) (hgrown' : Grown c₂ c₃ behind j) {steps : UInt8}
    (ho₃ : c₃.blocks.opened = ⟨c.blocks.allocated, steps⟩ :: c.blocks.opened)
    (hsteps : steps.toNat < 255) :
    ∃ c', Takes c (Stmt.branch e body others).lines c' ∧ Grown c c' behind (n + j + 1) := by
  obtain ⟨hif, hroom⟩ := h.enterIf he
  obtain ⟨ps, hcont, ho, _⟩ := Block.compiled hroom.usual hroom.consistent hbody
  obtain ⟨qs, _, hcont', _, _⟩ := Branches.compiled hcont.usual hcont.consistent ho hothers
  have hroom₃ := Room.after (j := 0) (hroom.after hcont hgrown) hcont' hgrown'
  have htop : c₃.structures.top? = some .ifThen := by
    rw [hcont'.structures, hcont.structures]
    exact Stack.top?_push _ _
  have hne : steps ≠ 255 := by
    rintro rfl
    exact absurd hsteps (by decide)
  have hend := (line_endIf_eq_ok_iff hcont'.usual).2
    ⟨hroom₃.checkSwitch .endIf, htop, _, _, ho₃, hne, rfl⟩
  refine ⟨_, takes_cons_iff.2 ⟨_, hif, takes_append_iff.2 ⟨_, takes_append_iff.2 ⟨_, hbody,
    hothers⟩, takes_singleton_iff.2 hend⟩⟩, hgrown'.known, ?_, hgrown'.limit.trans hgrown.limit⟩
  have hallocated : c₂.blocks.allocated = c.blocks.allocated + 1 + n := hgrown.allocated
  have hallocated' := hgrown'.allocated
  show c₃.blocks.allocated = _
  omega

end

/-! ## Further branches -/

theorem toNat_succ {a : UInt8} (h : a.toNat < 255) : (a + 1).toNat = a.toNat + 1 := by
  rw [UInt8.toNat_add, UInt8.toNat_one]
  omega

theorem ne_255 {a : UInt8} (h : a.toNat < 255) : a ≠ 255 := by
  rintro rfl
  exact absurd h (by decide)

section
variable {c : Compiler} {known : List String} {looped : Bool} {n k : Nat} {o : OpenBlock}
  {rest : List OpenBlock}

/-- The line that opens the last branch, and the room behind it. -/
theorem Room.enterElse (h : Room c known looped n k) (htop : c.structures.top? = some .ifThen)
    (ho : c.blocks.opened = o :: rest) (hs : o.steps.toNat < 255) :
    line (alone .otherwise) c = .ok () (branchState c .otherwise o rest) ∧
      Room (branchState c .otherwise o rest) known looped n k := by
  have hline := (line_otherwise_eq_ok_iff h.usual).2
    ⟨h.checkSwitch .otherwise, htop, o, rest, ho, ne_255 hs, rfl⟩
  have hcont := continues_branchState h.usual h.consistent .otherwise ho (ne_255 hs)
  have hgrown : Grown c (branchState c .otherwise o rest) known 0 := ⟨h.known, rfl, rfl⟩
  exact ⟨hline, Room.after (h.mono (by omega) (Nat.le_refl k)) hcont hgrown⟩

/-- The line that opens a branch with a condition, and the room behind it. -/
theorem Room.enterElseIf (h : Room c known looped n k) (htop : c.structures.top? = some .ifThen)
    (ho : c.blocks.opened = o :: rest) (hs : o.steps.toNat + 1 < 255) {e : Expr}
    (he : e.declared known = true) :
    ∃ c₁, line (headed .elseIf e.chars) c = .ok () c₁ ∧ Room c₁ known looped n k ∧
      Grown c c₁ known 0 ∧ c₁.structures = c.structures ∧
      c₁.blocks.opened = ⟨o.number, o.steps + 1⟩ :: rest := by
  have hknown := Expr.known_of_declared h.known he
  have hne : o.steps ≠ 255 := ne_255 (by omega)
  have hne' : o.steps + 1 ≠ 255 := ne_255 (by rw [toNat_succ (by omega)]; omega)
  have hline := (line_elseIf_eq_ok_iff h.usual e).2
    ⟨h.checkSwitch .elseIf, htop, o, rest, ho, hne, hne', hknown, rfl⟩
  have hjump := continues_branchState h.usual h.consistent .elseIf ho hne
  have hcont := hjump.trans (continues_elseIf h.usual h.consistent ho hne hknown)
  have hgrown : Grown c ((branchState c .elseIf o rest).withJump (.code .cmp :: e.tree.items)
      ⟨o.number, .step (o.steps + 1 + 1)⟩) known 0 := ⟨h.known, rfl, rfl⟩
  exact ⟨_, hline, Room.after (h.mono (by omega) (Nat.le_refl k)) hcont hgrown, hgrown, rfl, rfl⟩

end

/-! ## Scripts -/

mutual

/-- A statement that can be accepted is, where there is room for it. -/
theorem Stmt.accepted {c : Compiler} {known : List String} {looped : Bool} :
    ∀ {a : Stmt}, a.Acceptable known looped → Room c known looped a.blocks a.nesting →
      ∃ c', Takes c a.lines c' ∧ Grown c c' (a.declares ++ known) a.blocks
  | .declare x none, ha, hroom =>
    Stmt.accepted_declare hroom (ha.names _ (by simp [Stmt.variables]))
  | .declare x (some change), ha, hroom =>
    Stmt.accepted_declareAssign hroom (ha.names _ (by simp [Stmt.variables])) ha.declared
  | .assign x change, ha, hroom => by
    have hd := ha.declared
    rw [Stmt.declared, Bool.and_eq_true] at hd
    exact Stmt.accepted_assign hroom hd.1 hd.2
  | .exit, ha, hroom => by
    obtain rfl : looped = true := ha.exits
    exact Stmt.accepted_exit hroom
  | .choose .., ha, _ => by
    cases ha.choiceless
  | .leave, ha, _ => by
    cases ha.choiceless
  | .loop test body, ha, hroom => by
    obtain ⟨htest, ha⟩ := ha.inner.2.test
    obtain ⟨_, hinside⟩ := hroom.enterWhile htest
    obtain ⟨c₂, hbody, hgrown⟩ := Block.accepted ha hinside
    exact accepted_loop hroom htest hbody hgrown
  | .branch test body others, ha, hroom => by
    obtain ⟨hlength, ha⟩ := ha.inner
    obtain ⟨htest, ha⟩ := ha.test
    obtain ⟨hbody, hothers⟩ := ha.split
    obtain ⟨_, hinside⟩ := hroom.enterIf htest
    obtain ⟨c₂, htakes, hgrown⟩ := Block.accepted hbody
      (hinside.mono (Nat.le_add_right _ _) (Nat.le_max_left _ _))
    obtain ⟨ps, hcont, ho, _⟩ := Block.compiled hinside.usual hinside.consistent htakes
    have hroom₂ := (hinside.after hcont hgrown).mono (Nat.le_refl _) (Nat.le_max_right _ _)
    have htop : c₂.structures.top? = some .ifThen := by
      rw [hcont.structures]
      exact Stack.top?_push _ _
    obtain ⟨c₃, htakes', hgrown', steps, ho', hsteps⟩ := Branches.accepted hothers hroom₂ htop ho
      (by rw [show (0 : UInt8).toNat = 0 from rfl]; omega)
    rw [Stmt.declares, List.append_assoc]
    refine accepted_branch hroom htest htakes hgrown htakes' hgrown' ho' ?_
    rw [hsteps, show (0 : UInt8).toNat = 0 from rfl]
    omega

/-- A block that can be accepted is, where there is room for it. -/
theorem Block.accepted {c : Compiler} {known : List String} {looped : Bool} :
    ∀ {a : Block}, a.Acceptable known looped → Room c known looped a.blocks a.nesting →
      ∃ c', Takes c a.lines c' ∧ Grown c c' (a.declares ++ known) a.blocks
  | .nil, _, hroom => ⟨c, .nil c, hroom.known, rfl, rfl⟩
  | .cons s rest, ha, hroom => by
    obtain ⟨hs, hrest⟩ := ha.split
    obtain ⟨c₁, htakes, hgrown⟩ := Stmt.accepted hs
      (hroom.mono (Nat.le_add_right _ _) (Nat.le_max_left _ _))
    obtain ⟨ps, hcont, _, _⟩ := Stmt.compiled hroom.usual hroom.consistent htakes
    obtain ⟨c', htakes', hgrown'⟩ := Block.accepted hrest
      ((hroom.after hcont hgrown).mono (Nat.le_refl _) (Nat.le_max_right _ _))
    rw [Block.declares, List.append_assoc]
    exact ⟨c', takes_append_iff.2 ⟨c₁, htakes, htakes'⟩, hgrown.trans hgrown'⟩

/-- Further branches that can be accepted are, behind a branch of a ladder that has
steps left; each takes one step of the ladder. -/
theorem Branches.accepted {c : Compiler} {known : List String} {looped : Bool} {o : OpenBlock}
    {rest : List OpenBlock} :
    ∀ {a : Branches}, a.Acceptable known looped → Room c known looped a.blocks a.nesting →
      c.structures.top? = some .ifThen → c.blocks.opened = o :: rest →
      o.steps.toNat + a.length < 255 →
      ∃ c', Takes c a.lines c' ∧ Grown c c' (a.declares ++ known) a.blocks ∧
        ∃ steps, c'.blocks.opened = ⟨o.number, steps⟩ :: rest ∧
          steps.toNat = o.steps.toNat + a.length
  | .nil, _, hroom, _, ho, _ => ⟨c, .nil c, ⟨hroom.known, rfl, rfl⟩, o.steps, ho, rfl⟩
  | .otherwise body, ha, hroom, htop, ho, hlength => by
    rw [Branches.length] at hlength
    obtain ⟨helse, hroom₁⟩ := hroom.enterElse htop ho (by omega)
    obtain ⟨c', htakes, hgrown⟩ := Block.accepted ha hroom₁
    obtain ⟨ps, _, ho', _⟩ := Block.compiled hroom₁.usual hroom₁.consistent htakes
    refine ⟨c', takes_cons_iff.2 ⟨_, helse, htakes⟩, ⟨hgrown.known, hgrown.allocated, hgrown.limit⟩,
      o.steps + 1, ho', ?_⟩
    rw [Branches.length, toNat_succ (by omega)]
  | .also test body others, ha, hroom, htop, ho, hlength => by
    rw [Branches.length] at hlength
    obtain ⟨htest, ha⟩ := ha.test
    obtain ⟨hbody, hothers⟩ := ha.split
    obtain ⟨c₁, hif, hroom₁, hgrown₁, hstructures, ho₁⟩ :=
      hroom.enterElseIf htop ho (by omega) htest
    obtain ⟨c₂, htakes, hgrown⟩ := Block.accepted hbody
      (hroom₁.mono (Nat.le_add_right _ _) (Nat.le_max_left _ _))
    obtain ⟨ps, hcont, ho₂, _⟩ := Block.compiled hroom₁.usual hroom₁.consistent htakes
    have hsucc : (o.steps + 1).toNat = o.steps.toNat + 1 := toNat_succ (by omega)
    obtain ⟨c', htakes', hgrown', steps, ho', hsteps⟩ := Branches.accepted hothers
      ((hroom₁.after hcont hgrown).mono (Nat.le_refl _) (Nat.le_max_right _ _))
      (by rw [hcont.structures, hstructures]; exact htop) (ho₂.trans ho₁)
      (by rw [hsucc]; omega)
    rw [Branches.declares, List.append_assoc]
    have hall := (hgrown₁.trans hgrown).trans hgrown'
    rw [Nat.zero_add] at hall
    refine ⟨c', takes_cons_iff.2 ⟨c₁, hif, takes_append_iff.2 ⟨c₂, htakes, htakes'⟩⟩, hall, steps,
      ho', ?_⟩
    rw [hsteps, hsucc, Branches.length]
    omega

end

/-- Room for a whole script. -/
theorem room_fresh (file : String) {n k : Nat} (hn : n ≤ 0xFFFFFF) (hk : k ≤ 65535) :
    Room (fresh file) [] false n k where
  usual := usual_fresh file
  consistent := consistent_fresh file
  known := fun x hx => (List.not_mem_nil hx).elim
  outside := by
    show (#[] : Array Word).back? ≠ _
    simp
  looped := fun h => Bool.noConfusion h
  blocks := by
    show 0 + n ≤ 0xFFFFFF
    omega
  structures := by
    show 0 + k ≤ 65535
    omega
  loops := by
    show 0 + k ≤ 65535
    omega

/-- A script whose lines are accepted is compiled: nothing is left open, and every
jump of it finds its label. -/
theorem Block.compiles_of_takes {b : Block} {file : String} {c : Compiler}
    (h : Takes (fresh file) b.lines c) : ∃ p, compile file b.source = .ok p := by
  obtain ⟨ps, hcont, _, hplaces⟩ := Block.compiled (usual_fresh file) (consistent_fresh file) h
  have hleads : Leads (fresh file) c.blocks 0 0 :=
    ⟨fun l hl => (nomatch hl), fun l hl => (nomatch hl)⟩
  have hopen : c.structures.top? = none := by
    rw [hcont.structures]
    rfl
  obtain ⟨p, c', hfinish⟩ := exists_finish hcont.writes.code hcont.writes.fixups hopen
    (hplaces c.blocks 0 0 (.refl _) hleads).labelled
  rw [← b.lines_source] at h
  exact ⟨p, compile_eq_ok_iff.2 ⟨c, c', h, hfinish⟩⟩

/-- A script without choices that keeps the limits is compiled. -/
theorem Block.compiles {b : Block} (hb : b.Acceptable [] false) (hblocks : b.blocks ≤ 0xFFFFFF)
    (hnesting : b.nesting ≤ 65535) (file : String) : ∃ p, compile file b.source = .ok p := by
  obtain ⟨c, htakes, _⟩ := Block.accepted hb (room_fresh file hblocks hnesting)
  exact Block.compiles_of_takes htakes

end ScriptMachine.Structured
