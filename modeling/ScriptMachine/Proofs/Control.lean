/-
  ScriptMachine.Proofs.Control

  When a control word succeeds, and the state it leaves.  The bookkeeping of a word
  and its command are given one equivalence each, down to the fields of the state;
  only the drafts of expressions are left as they are.
-/

import ScriptMachine.Proofs.Writing

namespace ScriptMachine

-- comparing two states should never run the writing of the program
attribute [local irreducible] Program.write

namespace Compiler

/-! ## States left by block operations -/

/-- The state with a new block that starts here. -/
def blockOpened (c : Compiler) (word : Word) : Compiler :=
  let l : Label := ⟨c.blocks.allocated, .start⟩
  { c with
    blocks := { c.blocks with
      allocated := c.blocks.allocated + 1
      opened := ⟨c.blocks.allocated, 0⟩ :: c.blocks.opened }.record l c.program.position
    program := c.program.comment (word.spelling ++ " " ++ l.text) }

/-- The state with the next step of the innermost block `o` taken here. -/
def blockLinked (c : Compiler) (word : Word) (o : OpenBlock) (rest : List OpenBlock) : Compiler :=
  let l : Label := ⟨o.number, .step (o.steps + 1)⟩
  { c with
    blocks := { c.blocks with
      opened := { o with steps := o.steps + 1 } :: rest }.record l c.program.position
    program := c.program.comment (word.spelling ++ " " ++ l.text) }

/-- The state with the innermost block `o` closed here. -/
def blockClosed (c : Compiler) (word : Word) (o : OpenBlock) (rest : List OpenBlock) : Compiler :=
  let l : Label := ⟨o.number, .finish⟩
  { c with
    blocks := { c.blocks with opened := rest }.record l c.program.position
    program := c.program.comment (word.spelling ++ " " ++ l.text) }

/-- The state with the innermost structure left. -/
def structureLeft (c : Compiler) : Compiler :=
  { c with structures := { c.structures with items := c.structures.items.pop } }

/-- The last step of a block and its end at the same place. -/
def blockLeft (c : Compiler) (word : Word) (o : OpenBlock) (rest : List OpenBlock) : Compiler :=
  ((c.blockLinked word o rest).blockClosed word { o with steps := o.steps + 1 } rest).structureLeft

/-- The state inside the body of a case, or outside of it. -/
def withCase (c : Compiler) (inside : Bool) : Compiler :=
  { c with inCase := inside }

section
variable (c : Compiler) (word : Word) (items : List Item) (l : Label) (o : OpenBlock)
  (rest : List OpenBlock)

@[simp] theorem symbols_withJump : (c.withJump items l).symbols = c.symbols := rfl

@[simp] theorem config_withJump : (c.withJump items l).config = c.config := rfl

@[simp] theorem blocks_withJump : (c.withJump items l).blocks = c.blocks := rfl

@[simp] theorem structures_withJump : (c.withJump items l).structures = c.structures := rfl

@[simp] theorem structures_blockOpened : (c.blockOpened word).structures = c.structures := rfl

@[simp] theorem structures_blockLinked : (c.blockLinked word o rest).structures =
    c.structures := rfl

@[simp] theorem switchEnds_withJump : (c.withJump items l).switchEnds = c.switchEnds := rfl

@[simp] theorem switchEnds_blockOpened : (c.blockOpened word).switchEnds = c.switchEnds := rfl

@[simp] theorem switchEnds_blockLinked : (c.blockLinked word o rest).switchEnds =
    c.switchEnds := rfl

@[simp] theorem whileEnd_withJump : (c.withJump items l).whileEnd = c.whileEnd := rfl

@[simp] theorem whileEnd_blockOpened : (c.blockOpened word).whileEnd = c.whileEnd := rfl

@[simp] theorem whileEnd_blockLinked : (c.blockLinked word o rest).whileEnd = c.whileEnd := rfl

@[simp] theorem whileEnds_withJump : (c.withJump items l).whileEnds = c.whileEnds := rfl

@[simp] theorem whileEnds_blockOpened : (c.blockOpened word).whileEnds = c.whileEnds := rfl

@[simp] theorem whileEnds_blockLinked : (c.blockLinked word o rest).whileEnds = c.whileEnds := rfl

@[simp] theorem switchEnds_blockLeft : (c.blockLeft word o rest).switchEnds = c.switchEnds := rfl

@[simp] theorem whileEnd_blockLeft : (c.blockLeft word o rest).whileEnd = c.whileEnd := rfl

@[simp] theorem whileEnds_blockLeft : (c.blockLeft word o rest).whileEnds = c.whileEnds := rfl

end

/-! ## Blocks left by block operations -/

section
variable {c : Compiler} (hb : c.blocks.Consistent)
include hb

theorem blockOpened_blocks (word : Word) (hlt : c.blocks.allocated < c.blocks.limit) :
    (c.blockOpened word).blocks.Consistent ∧ c.blocks.Extends (c.blockOpened word).blocks :=
  hb.start (Blocks.start_eq_ok_iff.2 ⟨hlt, rfl, rfl⟩)

variable {o : OpenBlock} {rest : List OpenBlock}

theorem blockLinked_blocks (word : Word) (ho : c.blocks.opened = o :: rest) (hs : o.steps ≠ 255) :
    (c.blockLinked word o rest).blocks.Consistent ∧
      c.blocks.Extends (c.blockLinked word o rest).blocks :=
  hb.link (Blocks.link_eq_ok_iff.2 ⟨o, rest, ho, hs, rfl, rfl⟩)

theorem blockLeft_blocks (word : Word) (ho : c.blocks.opened = o :: rest) (hs : o.steps ≠ 255) :
    (c.blockLeft word o rest).blocks.Consistent ∧
      c.blocks.Extends (c.blockLeft word o rest).blocks := by
  obtain ⟨hlinked, hlink⟩ := blockLinked_blocks hb word ho hs
  have hclose : (c.blockLinked word o rest).blocks.close c.program.position =
      .ok (⟨o.number, .finish⟩, (c.blockLeft word o rest).blocks) :=
    Blocks.close_eq_ok_iff.2 ⟨_, rest, rfl, rfl, rfl⟩
  obtain ⟨hclosed, hextends⟩ := hlinked.close hclose
  exact ⟨hclosed, hlink.trans hextends⟩

end

theorem address?_blockOpened (c : Compiler) (word : Word) :
    (c.blockOpened word).blocks.address? ⟨c.blocks.allocated, .start⟩ =
      some c.program.position := by
  simp [blockOpened]

theorem address?_blockLinked (c : Compiler) (word : Word) (o : OpenBlock) (rest : List OpenBlock) :
    (c.blockLinked word o rest).blocks.address? ⟨o.number, .step (o.steps + 1)⟩ =
      some c.program.position := by
  simp [blockLinked]

/-- Where a block is left, both its last step and its end are. -/
theorem address?_blockLeft (c : Compiler) (word : Word) (o : OpenBlock) (rest : List OpenBlock) :
    (c.blockLeft word o rest).blocks.address? ⟨o.number, .step (o.steps + 1)⟩ =
        some c.program.position ∧
      (c.blockLeft word o rest).blocks.address? ⟨o.number, .finish⟩ = some c.program.position := by
  have hlinked := address?_blockLinked c word o rest
  have hne : (⟨o.number, .finish⟩ : Label) ≠ ⟨o.number, .step (o.steps + 1)⟩ := by simp
  refine ⟨?_, ?_⟩
  · exact (Blocks.address?_record _ _ _ _).trans ((if_neg hne).trans hlinked)
  · exact (Blocks.address?_record _ _ _ _).trans (if_pos rfl)

end Compiler

namespace Compile

variable {c c' : Compiler} {u : Unit}

/-! ## Bookkeeping of blocks -/

theorem start_eq_ok_iff {word : Word} :
    onBlocks word Blocks.start c = .ok u c' ↔
      c.blocks.allocated < c.blocks.limit ∧ c' = c.blockOpened word := by
  simp only [onBlocks_eq_ok_iff, Blocks.start_eq_ok_iff]
  constructor
  · rintro ⟨_, _, ⟨hlt, rfl, rfl⟩, rfl⟩
    exact ⟨hlt, rfl⟩
  · rintro ⟨hlt, rfl⟩
    exact ⟨_, _, ⟨hlt, rfl, rfl⟩, rfl⟩

theorem linkBlock_eq_ok_iff {word : Word} :
    linkBlock word c = .ok u c' ↔ ∃ o rest, c.blocks.opened = o :: rest ∧ o.steps ≠ 255 ∧
      c' = c.blockLinked word o rest := by
  unfold linkBlock
  simp only [onBlocks_eq_ok_iff, Blocks.link_eq_ok_iff]
  constructor
  · rintro ⟨_, _, ⟨o, rest, ho, hs, rfl, rfl⟩, rfl⟩
    exact ⟨o, rest, ho, hs, rfl⟩
  · rintro ⟨o, rest, ho, hs, rfl⟩
    exact ⟨_, _, ⟨o, rest, ho, hs, rfl, rfl⟩, rfl⟩

theorem close_eq_ok_iff {word : Word} :
    onBlocks word Blocks.close c = .ok u c' ↔ ∃ o rest, c.blocks.opened = o :: rest ∧
      c' = c.blockClosed word o rest := by
  simp only [onBlocks_eq_ok_iff, Blocks.close_eq_ok_iff]
  constructor
  · rintro ⟨_, _, ⟨o, rest, ho, rfl, rfl⟩, rfl⟩
    exact ⟨o, rest, ho, rfl⟩
  · rintro ⟨o, rest, ho, rfl⟩
    exact ⟨_, _, ⟨o, rest, ho, rfl, rfl⟩, rfl⟩

theorem expectStructure_eq_ok_iff {opener word : Word} :
    expectStructure opener word c = .ok u c' ↔ c.structures.top? = some opener ∧ c' = c := by
  unfold expectStructure
  rw [ask_eq_ok_iff]
  refine and_congr_left fun _ => ?_
  cases c.structures.top? with
  | none => simp
  | some opened => by_cases h : opened = opener <;> simp [h]

theorem pushStructure_eq_ok_iff {word : Word} :
    onStructures (Stack.push word) c = .ok u c' ↔ c.structures.size < Stack.limit ∧
      c' = { c with structures := { c.structures with items := c.structures.items.push word } } := by
  simp only [onStructures_eq_ok_iff, Stack.push_eq_ok_iff]
  constructor
  · rintro ⟨_, ⟨hlt, rfl⟩, rfl⟩
    exact ⟨hlt, rfl⟩
  · rintro ⟨hlt, rfl⟩
    exact ⟨_, ⟨hlt, rfl⟩, rfl⟩

theorem popStructure_eq_ok_iff {word : Word} :
    onStructures Stack.pop c = .ok word c' ↔ c.structures.top? = some word ∧
      c' = c.structureLeft := by
  simp only [onStructures_eq_ok_iff, Stack.pop_eq_ok_iff]
  constructor
  · rintro ⟨_, ⟨htop, rfl⟩, rfl⟩
    exact ⟨htop, rfl⟩
  · rintro ⟨htop, rfl⟩
    exact ⟨_, ⟨htop, rfl⟩, rfl⟩

theorem openBlock_eq_ok_iff {word : Word} (hword : word ≠ .choose) :
    openBlock word c = .ok u c' ↔ c.blocks.allocated < c.blocks.limit ∧
      c.structures.size < Stack.limit ∧ c' = { c.blockOpened word with
        structures := { c.structures with items := c.structures.items.push word } } := by
  unfold openBlock
  simp only [bind_eq_ok_iff, start_eq_ok_iff, if_pos hword, pushStructure_eq_ok_iff]
  constructor
  · rintro ⟨_, _, ⟨hlt, rfl⟩, hsize, rfl⟩
    exact ⟨hlt, hsize, rfl⟩
  · rintro ⟨hlt, hsize, rfl⟩
    exact ⟨(), _, ⟨hlt, rfl⟩, hsize, rfl⟩

theorem openChoose_eq_ok_iff :
    openBlock .choose c = .ok u c' ↔ c.blocks.allocated < c.blocks.limit ∧
      c' = c.blockOpened .choose := by
  unfold openBlock
  simp only [bind_eq_ok_iff, start_eq_ok_iff, ne_eq, not_true_eq_false, if_false, pure_eq_ok_iff]
  constructor
  · rintro ⟨_, _, ⟨hlt, rfl⟩, _, rfl⟩
    exact ⟨hlt, rfl⟩
  · rintro ⟨hlt, rfl⟩
    exact ⟨(), _, ⟨hlt, rfl⟩, trivial, rfl⟩

theorem goto_eq_ok_iff {l : Label} :
    goto l c = .ok u c' ↔ c' = c.withJump [.code .goto] l := by
  show EStateM.Result.ok () (c.withJump [.code .goto] l) = _ ↔ _
  simp only [EStateM.Result.ok.injEq, true_and, eq_comm]

theorem nextBranch_eq_ok_iff {word : Word} :
    nextBranch word c = .ok u c' ↔ c.structures.top? = some .ifThen ∧
      ∃ o rest, c.blocks.opened = o :: rest ∧ o.steps ≠ 255 ∧
        c' = (c.withJump [.code .goto] ⟨o.number, .finish⟩).blockLinked word o rest := by
  unfold nextBranch
  simp only [bind_eq_ok_iff, expectStructure_eq_ok_iff, ask_eq_ok_iff, Blocks.endLabel_eq_ok_iff,
    goto_eq_ok_iff, linkBlock_eq_ok_iff]
  constructor
  · rintro ⟨_, _, ⟨htop, rfl⟩, _, _, ⟨⟨o, rest, ho, rfl⟩, rfl⟩, _, _, rfl, o', rest', ho', hs, rfl⟩
    obtain ⟨rfl, rfl⟩ := List.cons.inj (ho.symm.trans ho')
    exact ⟨htop, o, rest, ho, hs, rfl⟩
  · rintro ⟨htop, o, rest, ho, hs, rfl⟩
    exact ⟨(), _, ⟨htop, rfl⟩, _, _, ⟨⟨o, rest, ho, rfl⟩, rfl⟩, (), _, rfl, o, rest, ho, hs, rfl⟩

theorem nextClause_eq_ok_iff {word : Word} :
    nextClause word c = .ok u c' ↔ c.structures.top? = some .choose ∧
      ∃ o rest, c.blocks.opened = o :: rest ∧ o.steps ≠ 255 ∧
        c' = c.blockLinked word o rest := by
  unfold nextClause
  simp only [bind_eq_ok_iff, expectStructure_eq_ok_iff, linkBlock_eq_ok_iff]
  constructor
  · rintro ⟨_, _, ⟨htop, rfl⟩, o, rest, ho, hs, rfl⟩
    exact ⟨htop, o, rest, ho, hs, rfl⟩
  · rintro ⟨htop, o, rest, ho, hs, rfl⟩
    exact ⟨(), _, ⟨htop, rfl⟩, o, rest, ho, hs, rfl⟩

theorem breakChoose_eq_ok_iff :
    breakChoose c = .ok u c' ↔ ∃ l, c.switchEnds.top? = some l ∧
      c' = c.withJump [.code .goto] l := by
  unfold breakChoose
  simp only [bind_eq_ok_iff, ask_eq_ok_iff, goto_eq_ok_iff]
  constructor
  · rintro ⟨l, _, ⟨htop, rfl⟩, rfl⟩
    refine ⟨l, ?_, rfl⟩
    split at htop
    · rename_i h
      rw [h, Except.ok.inj htop]
    · cases htop
  · rintro ⟨l, htop, rfl⟩
    exact ⟨l, _, ⟨by rw [htop], rfl⟩, rfl⟩

theorem closeIf_eq_ok_iff :
    closeBlock .ifThen .endIf c = .ok u c' ↔ c.structures.top? = some .ifThen ∧
      ∃ o rest, c.blocks.opened = o :: rest ∧ o.steps ≠ 255 ∧
        c' = c.blockLeft .endIf o rest := by
  unfold closeBlock
  simp only [bind_eq_ok_iff, expectStructure_eq_ok_iff, linkBlock_eq_ok_iff, close_eq_ok_iff,
    popStructure_eq_ok_iff, pure_eq_ok_iff, reduceCtorEq, if_false]
  constructor
  · rintro ⟨_, _, ⟨htop, rfl⟩, _, _, ⟨o, rest, ho, hs, rfl⟩, _, _, ⟨o', rest', ho', rfl⟩,
      _, _, ⟨_, rfl⟩, _, rfl⟩
    obtain ⟨rfl, rfl⟩ := List.cons.inj ho'
    exact ⟨htop, o, rest, ho, hs, rfl⟩
  · rintro ⟨htop, o, rest, ho, hs, rfl⟩
    exact ⟨(), _, ⟨htop, rfl⟩, (), _, ⟨o, rest, ho, hs, rfl⟩, (), _, ⟨_, rest, rfl, rfl⟩,
      _, _, ⟨htop, rfl⟩, trivial, rfl⟩

theorem closeWhile_eq_ok_iff :
    closeBlock .whileDo .endWhile c = .ok u c' ↔ c.structures.top? = some .whileDo ∧
      ∃ o rest, c.blocks.opened = o :: rest ∧ o.steps ≠ 255 ∧
        c' = (c.withJump [.code .goto] ⟨o.number, .start⟩).blockLeft .endWhile o rest := by
  unfold closeBlock
  simp only [bind_eq_ok_iff, expectStructure_eq_ok_iff, ask_eq_ok_iff, Blocks.startLabel_eq_ok_iff,
    goto_eq_ok_iff, linkBlock_eq_ok_iff, close_eq_ok_iff, popStructure_eq_ok_iff, pure_eq_ok_iff,
    reduceCtorEq, if_true, if_false]
  constructor
  · rintro ⟨_, _, ⟨htop, rfl⟩, _, _, ⟨⟨o, rest, ho, rfl⟩, rfl⟩, _, _, rfl, _, _,
      ⟨o₁, rest₁, ho₁, hs, rfl⟩, _, _, ⟨o₂, rest₂, ho₂, rfl⟩, _, _, ⟨_, rfl⟩, _, rfl⟩
    obtain ⟨rfl, rfl⟩ := List.cons.inj (ho.symm.trans ho₁)
    obtain ⟨rfl, rfl⟩ := List.cons.inj ho₂
    exact ⟨htop, o, rest, ho, hs, rfl⟩
  · rintro ⟨htop, o, rest, ho, hs, rfl⟩
    exact ⟨(), _, ⟨htop, rfl⟩, _, _, ⟨⟨o, rest, ho, rfl⟩, rfl⟩, (), _, rfl, (), _,
      ⟨o, rest, ho, hs, rfl⟩, (), _, ⟨_, rest, rfl, rfl⟩, _, _, ⟨htop, rfl⟩, trivial, rfl⟩

theorem closeChoose_eq_ok_iff :
    closeBlock .choose .endChoose c = .ok u c' ↔ c.structures.top? = some .choose ∧
      ∃ o rest l, c.blocks.opened = o :: rest ∧ o.steps ≠ 255 ∧ c.switchEnds.top? = some l ∧
        c' = { c.blockLeft .endChoose o rest with
          switchEnds := { c.switchEnds with items := c.switchEnds.items.pop } } := by
  unfold closeBlock
  simp only [bind_eq_ok_iff, expectStructure_eq_ok_iff, linkBlock_eq_ok_iff, close_eq_ok_iff,
    popStructure_eq_ok_iff, onSwitchEnds_eq_ok_iff, Stack.pop_eq_ok_iff, pure_eq_ok_iff,
    reduceCtorEq, if_true, if_false]
  constructor
  · rintro ⟨_, _, ⟨htop, rfl⟩, _, _, ⟨o, rest, ho, hs, rfl⟩, _, _, ⟨o', rest', ho', rfl⟩,
      _, _, ⟨_, rfl⟩, l, _, ⟨_, ⟨hl, rfl⟩, rfl⟩, _, rfl⟩
    obtain ⟨rfl, rfl⟩ := List.cons.inj ho'
    exact ⟨htop, o, rest, l, ho, hs, hl, rfl⟩
  · rintro ⟨htop, o, rest, l, ho, hs, hl, rfl⟩
    exact ⟨(), _, ⟨htop, rfl⟩, (), _, ⟨o, rest, ho, hs, rfl⟩, (), _, ⟨_, rest, rfl, rfl⟩,
      _, _, ⟨htop, rfl⟩, l, _, ⟨_, ⟨hl, rfl⟩, rfl⟩, trivial, rfl⟩

/-! ## Commands -/

theorem testValue_eq_ok_iff {opcode : Opcode} {missing : Cause} {s : Scanner} :
    testValue opcode missing s c = .ok u c' ↔ ∃ items o rest,
      c.context.lastValue opcode missing s = ⟨items, .ok ()⟩ ∧
      c.blocks.opened = o :: rest ∧ o.steps ≠ 255 ∧
      c' = c.withJump items ⟨o.number, .step (o.steps + 1)⟩ := by
  unfold testValue
  simp only [bind_eq_ok_iff, emit_eq_ok_iff, ask_eq_ok_iff, Blocks.nextLabel_eq_ok_iff,
    jumpTo_eq_ok_iff]
  constructor
  · rintro ⟨_, _, ⟨items, hitems, rfl⟩, _, _, ⟨⟨o, rest, ho, hs, rfl⟩, rfl⟩, rfl⟩
    exact ⟨items, o, rest, hitems, ho, hs, rfl⟩
  · rintro ⟨items, o, rest, hitems, ho, hs, rfl⟩
    exact ⟨(), _, ⟨items, hitems, rfl⟩, _, _, ⟨⟨o, rest, ho, hs, rfl⟩, rfl⟩, rfl⟩

theorem condition_eq_ok_iff {word : Word} {s : Scanner} :
    condition word s c = .ok u c' ↔ ∃ items o rest,
      c.context.lastValue .cmp (.missingCondition word) s = ⟨items, .ok ()⟩ ∧
      c.blocks.opened = o :: rest ∧ o.steps ≠ 255 ∧
      c' = c.withJump items ⟨o.number, .step (o.steps + 1)⟩ :=
  testValue_eq_ok_iff

/-- The state inside one more level of `if`. -/
def ifEntered (c : Compiler) : Compiler :=
  { c with ifDepth := c.ifDepth + 1, switchesInIf := 0 :: c.switchesInIf }

/-- The state outside the innermost level of `if`. -/
def ifLeft (c : Compiler) : Compiler :=
  { c with
    ifDepth := c.ifDepth - 1
    switchesInIf := if 1 < c.switchesInIf.length then c.switchesInIf.tail else c.switchesInIf }

theorem enterIf_eq_ok_iff {s : Scanner} :
    enterIf s c = .ok u c' ↔ ∃ items o rest,
      c.context.lastValue .cmp (.missingCondition .ifThen) s = ⟨items, .ok ()⟩ ∧
      c.blocks.opened = o :: rest ∧ o.steps ≠ 255 ∧
      c' = ifEntered (c.withJump items ⟨o.number, .step (o.steps + 1)⟩) := by
  unfold enterIf
  simp only [bind_eq_ok_iff, condition_eq_ok_iff, modify_eq_ok_iff]
  constructor
  · rintro ⟨_, _, ⟨items, o, rest, hitems, ho, hs, rfl⟩, rfl⟩
    exact ⟨items, o, rest, hitems, ho, hs, rfl⟩
  · rintro ⟨items, o, rest, hitems, ho, hs, rfl⟩
    exact ⟨(), _, ⟨items, o, rest, hitems, ho, hs, rfl⟩, rfl⟩

theorem leaveIf_eq_ok_iff : leaveIf c = .ok u c' ↔ c' = ifLeft c :=
  modify_eq_ok_iff

/-- The state inside the loop that ends at `l`. -/
def whileEntered (c : Compiler) (l : Label) : Compiler :=
  { c with
    whileEnds := { c.whileEnds with items := c.whileEnds.items.push c.whileEnd }
    whileEnd := some l }

theorem enterWhile_eq_ok_iff {s : Scanner} :
    enterWhile s c = .ok u c' ↔ c.whileEnds.size < Stack.limit ∧ ∃ items o rest,
      c.context.lastValue .cmp (.missingCondition .whileDo) s = ⟨items, .ok ()⟩ ∧
      c.blocks.opened = o :: rest ∧
      c' = whileEntered (c.withJump items ⟨o.number, .finish⟩) ⟨o.number, .finish⟩ := by
  unfold enterWhile
  simp only [bind_eq_ok_iff, get_eq_ok_iff, onWhileEnds_eq_ok_iff, Stack.push_eq_ok_iff,
    emit_eq_ok_iff, ask_eq_ok_iff, Blocks.endLabel_eq_ok_iff, modify_eq_ok_iff, jumpTo_eq_ok_iff]
  constructor
  · rintro ⟨_, _, ⟨rfl, rfl⟩, _, _, ⟨_, ⟨hlt, rfl⟩, rfl⟩, _, _, ⟨items, hitems, rfl⟩, _, _,
      ⟨⟨o, rest, ho, rfl⟩, rfl⟩, _, _, rfl, rfl⟩
    exact ⟨hlt, items, o, rest, hitems, ho, rfl⟩
  · rintro ⟨hlt, items, o, rest, hitems, ho, rfl⟩
    exact ⟨_, _, ⟨rfl, rfl⟩, (), _, ⟨_, ⟨hlt, rfl⟩, rfl⟩, (), _, ⟨items, hitems, rfl⟩, _, _,
      ⟨⟨o, rest, ho, rfl⟩, rfl⟩, (), _, rfl, rfl⟩

/-- The state outside the innermost loop. -/
def whileLeft (c : Compiler) (l : Option Label) : Compiler :=
  { c with
    whileEnds := { c.whileEnds with items := c.whileEnds.items.pop }
    whileEnd := l }

theorem leaveWhile_eq_ok_iff :
    leaveWhile c = .ok u c' ↔ ∃ l, c.whileEnds.top? = some l ∧ c' = whileLeft c l := by
  unfold leaveWhile
  simp only [bind_eq_ok_iff, onWhileEnds_eq_ok_iff, Stack.pop_eq_ok_iff, modify_eq_ok_iff]
  constructor
  · rintro ⟨l, _, ⟨_, ⟨htop, rfl⟩, rfl⟩, rfl⟩
    exact ⟨l, htop, rfl⟩
  · rintro ⟨l, htop, rfl⟩
    exact ⟨l, _, ⟨_, ⟨htop, rfl⟩, rfl⟩, rfl⟩

theorem exitWhile_eq_ok_iff :
    exitWhile c = .ok u c' ↔ ∃ l, c.whileEnd = some l ∧ c' = c.withJump [.code .goto] l := by
  unfold exitWhile
  rw [bind_eq_ok_iff]
  constructor
  · rintro ⟨_, d, hget, h⟩
    obtain ⟨rfl, rfl⟩ := get_eq_ok_iff.1 hget
    cases hl : d.whileEnd with
    | none =>
      rw [hl] at h
      exact absurd h throw_ne_ok
    | some l =>
      rw [hl] at h
      exact ⟨l, rfl, goto_eq_ok_iff.1 h⟩
  · rintro ⟨l, hl, rfl⟩
    refine ⟨_, _, get_eq_ok_iff.2 ⟨rfl, rfl⟩, ?_⟩
    rw [hl]
    exact goto_eq_ok_iff.2 rfl

/-! ## Choices -/

theorem of_countSwitch_eq_ok (h : countSwitch c = .ok u c') :
    ∃ counts, c' = { c with switchesInIf := counts } := by
  unfold countSwitch at h
  obtain ⟨_, d, hget, hcount⟩ := bind_eq_ok_iff.1 h
  obtain ⟨rfl, rfl⟩ := get_eq_ok_iff.1 hget
  by_cases hdepth : 0 < d.ifDepth
  · rw [if_pos hdepth] at hcount
    cases hs : d.switchesInIf with
    | nil =>
      rw [hs] at hcount
      exact ⟨[], hs ▸ (pure_eq_ok_iff.1 hcount).2⟩
    | cons count counts =>
      simp only [hs] at hcount
      split at hcount
      · exact absurd hcount throw_ne_ok
      · exact ⟨_, modify_eq_ok_iff.1 hcount⟩
  · rw [if_neg hdepth] at hcount
    exact ⟨_, (pure_eq_ok_iff.1 hcount).2⟩

/-- The state inside the choice that ends at `l`, behind the items that open it. -/
def chooseEntered (c : Compiler) (items : List Item) (symbols : Symbols) (l : Label)
    (counts : List Nat) (depth : Nat) : Compiler :=
  { c with
    program := c.program.writeAll items
    symbols
    switchEnds := { c.switchEnds with items := c.switchEnds.items.push l }
    structures := { c.structures with items := c.structures.items.push .choose }
    switchesInIf := counts
    switchDepth := depth
    inCase := false }

theorem of_enterChoose_eq_ok {s : Scanner} (h : enterChoose s c = .ok u c') :
    ∃ items symbols o rest counts,
      c.context.choice s = ⟨items, .ok ()⟩ ∧
      (symbols = c.symbols ∨ symbols = c.symbols.insert caseName .var) ∧
      c.blocks.opened = o :: rest ∧ c.switchEnds.size < Stack.limit ∧
      c.structures.size < Stack.limit ∧
      c' = chooseEntered c items symbols ⟨o.number, .finish⟩ counts (c.switchDepth + 1) := by
  unfold enterChoose at h
  simp only [bind_eq_ok_iff, emit_eq_ok_iff, onSymbols_eq_ok_iff, ask_eq_ok_iff,
    Blocks.endLabel_eq_ok_iff, onSwitchEnds_eq_ok_iff, Stack.push_eq_ok_iff,
    pushStructure_eq_ok_iff, modify_eq_ok_iff] at h
  obtain ⟨_, _, ⟨items, hitems, rfl⟩, _, _, ⟨symbols, hsymbols, rfl⟩, _, _,
    ⟨⟨o, rest, ho, rfl⟩, rfl⟩, _, _, ⟨_, ⟨hlt, rfl⟩, rfl⟩, _, _, ⟨hsize, rfl⟩, _, _, hcount, rfl⟩ := h
  obtain ⟨counts, rfl⟩ := of_countSwitch_eq_ok hcount
  refine ⟨items, symbols, o, rest, counts, hitems, ?_, ho, hlt, hsize, rfl⟩
  split at hsymbols
  · exact .inl (Except.ok.inj hsymbols).symm
  · exact .inr (Symbols.set_eq_ok_iff.1 hsymbols).2.2

/-- Outside of all `if` a `choose` is not counted. -/
theorem countSwitch_of_ifDepth (h : c.ifDepth = 0) : countSwitch c = .ok () c := by
  unfold countSwitch
  refine bind_eq_ok_iff.2 ⟨c, c, rfl, ?_⟩
  rw [if_neg (by omega)]
  rfl

/-- A `choose` outside of all `if`. -/
theorem enterChoose_of_ifDepth {s : Scanner} {items : List Item} {o : OpenBlock}
    {rest : List OpenBlock} (hdepth : c.ifDepth = 0) (hitems : c.context.choice s = ⟨items, .ok ()⟩)
    (ho : c.blocks.opened = o :: rest) (hends : c.switchEnds.size < Stack.limit)
    (hsize : c.structures.size < Stack.limit) :
    ∃ symbols, enterChoose s c = .ok () (chooseEntered c items symbols ⟨o.number, .finish⟩
      c.switchesInIf (c.switchDepth + 1)) := by
  have hreserved : Symbols.isReserved caseName = false := by decide +kernel
  obtain ⟨symbols, hsymbols⟩ : ∃ symbols, (if c.symbols.contains caseName then .ok c.symbols
      else c.symbols.set caseName .var) = (.ok symbols : Except Error Symbols) := by
    split
    · exact ⟨_, rfl⟩
    · exact ⟨_, Symbols.set_eq_ok_iff.2 ⟨by decide, hreserved, rfl⟩⟩
  refine ⟨symbols, ?_⟩
  unfold enterChoose
  simp only [bind_eq_ok_iff, emit_eq_ok_iff, onSymbols_eq_ok_iff, ask_eq_ok_iff,
    Blocks.endLabel_eq_ok_iff, onSwitchEnds_eq_ok_iff, Stack.push_eq_ok_iff,
    pushStructure_eq_ok_iff, modify_eq_ok_iff]
  exact ⟨(), _, ⟨items, hitems, rfl⟩, (), _, ⟨symbols, hsymbols, rfl⟩, _, _,
    ⟨⟨o, rest, ho, rfl⟩, rfl⟩, (), _, ⟨_, ⟨hends, rfl⟩, rfl⟩, (), _, ⟨hsize, rfl⟩, (), _,
    countSwitch_of_ifDepth hdepth, rfl⟩

theorem enterCase_eq_ok_iff {s : Scanner} :
    enterCase s c = .ok u c' ↔ ∃ items o rest,
      c.context.lastValue .case (.missingValueAfter .caseOf) s = ⟨items, .ok ()⟩ ∧
      c.blocks.opened = o :: rest ∧ o.steps ≠ 255 ∧
      c' = (c.withJump items ⟨o.number, .step (o.steps + 1)⟩).withCase true := by
  unfold enterCase
  simp only [bind_eq_ok_iff, testValue_eq_ok_iff, modify_eq_ok_iff]
  constructor
  · rintro ⟨_, _, ⟨items, o, rest, hitems, ho, hs, rfl⟩, rfl⟩
    exact ⟨items, o, rest, hitems, ho, hs, rfl⟩
  · rintro ⟨items, o, rest, hitems, ho, hs, rfl⟩
    exact ⟨(), _, ⟨items, o, rest, hitems, ho, hs, rfl⟩, rfl⟩

/-- The state outside the innermost choice, behind the item that restores the value
under test. -/
def chooseLeft (c : Compiler) : Compiler :=
  { c with
    program := c.program.writeAll (Instruction.pop caseName).items
    switchDepth := c.switchDepth - 1
    switchesInIf :=
      if 0 < c.ifDepth then
        match c.switchesInIf with
        | count :: counts => (count - 1) :: counts
        | [] => []
      else c.switchesInIf
    inCase := 1 < c.switchDepth }

theorem leaveChoose_eq_ok_iff :
    leaveChoose c = .ok u c' ↔ c.switchDepth ≠ 0 ∧ c' = chooseLeft c := by
  unfold leaveChoose
  simp only [bind_eq_ok_iff, ask_eq_ok_iff, modify_eq_ok_iff, emit_eq_ok_iff]
  constructor
  · rintro ⟨_, _, ⟨hdepth, rfl⟩, _, _, rfl, items, hitems, rfl⟩
    obtain ⟨_, _, hvar, rfl⟩ := Draft.of_put_bind_eq_ok hitems
    obtain ⟨rfl, _⟩ := Draft.of_put_eq_ok hvar
    refine ⟨?_, rfl⟩
    intro hzero
    rw [if_pos hzero] at hdepth
    cases hdepth
  · rintro ⟨hdepth, rfl⟩
    exact ⟨(), c, ⟨if_neg hdepth, rfl⟩, (), _, rfl, _, rfl, rfl⟩

end Compile

end ScriptMachine
