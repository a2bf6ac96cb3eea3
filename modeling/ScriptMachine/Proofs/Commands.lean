/-
  ScriptMachine.Proofs.Commands

  What the command words write.  The bookkeeping of every control word
  (`Compile.whole_control`) and the instructions of every command
  (`Compile.whole_command`) grow the program by whole instructions; definitions
  write nothing at all.
-/

import ScriptMachine.Proofs.Writing

namespace ScriptMachine

namespace Compile

variable {D : Signatures} {N : String → Prop}

/-! ## Bookkeeping of blocks -/

theorem whole_start (word : Word) : Whole D N (onBlocks word Blocks.start) := by
  refine whole_onBlocks fun b a l b' h m x hx => ?_
  obtain ⟨_, _, rfl⟩ := Blocks.start_eq_ok_iff.1 h
  exact Blocks.address?_of_record hx

theorem whole_linkBlock (word : Word) : Whole D N (linkBlock word) := by
  refine whole_onBlocks fun b a l b' h m x hx => ?_
  obtain ⟨_, _, _, _, _, rfl⟩ := Blocks.link_eq_ok_iff.1 h
  exact Blocks.address?_of_record hx

theorem whole_close (word : Word) : Whole D N (onBlocks word Blocks.close) := by
  refine whole_onBlocks fun b a l b' h m x hx => ?_
  obtain ⟨_, _, _, _, rfl⟩ := Blocks.close_eq_ok_iff.1 h
  exact Blocks.address?_of_record hx

/-- A jump alone. -/
theorem goto_eq (c : Compiler) (l : Label) : goto l c = .ok () (c.withJump [.code .goto] l) := rfl

theorem whole_goto (l : Label) : Whole D N (goto l) := by
  intro c a c' h
  rw [goto_eq] at h
  cases h
  exact (Compiler.writes_withJump (p := .goto l) rfl trivial).grows
    (Plan.uses_jump rfl (by simp [Planned.calls])) rfl rfl

/-- What the bookkeeping of a control word consists of keeps the relation. -/
structure KeepsBlocks (R : Compiler → Compiler → Prop) : Prop where
  start : ∀ word, Keeps R (onBlocks word Blocks.start)
  link : ∀ word, Keeps R (linkBlock word)
  close : ∀ word, Keeps R (onBlocks word Blocks.close)
  push : ∀ word, Keeps R (onStructures (Stack.push word))
  pop : Keeps R (onStructures Stack.pop)
  popEnd : Keeps R (onSwitchEnds Stack.pop)
  goto : ∀ l, Keeps R (goto l)

section
variable {R : Compiler → Compiler → Prop} [Std.Refl R] [IsTrans Compiler R] (hR : KeepsBlocks R)
include hR

theorem KeepsBlocks.openBlock (word : Word) : Keeps R (openBlock word) := by
  refine (hR.start word).bind fun _ => ?_
  split
  · exact hR.push word
  · exact keeps_pure ()

theorem KeepsBlocks.closeBlock (opener word : Word) : Keeps R (closeBlock opener word) := by
  refine (keeps_ask _).bind fun _ => ?_
  have hrest : Keeps R (do
      linkBlock word
      onBlocks word Blocks.close
      let _ ← onStructures Stack.pop
      if word = .endChoose then
        let _ ← onSwitchEnds Stack.pop) := by
    refine (hR.link word).bind fun _ => (hR.close word).bind fun _ => hR.pop.bind fun _ => ?_
    split
    · exact hR.popEnd.bind fun _ => keeps_pure _
    · exact keeps_pure ()
  dsimp only
  split
  · exact (keeps_ask _).bind fun l => (hR.goto l).bind fun _ => hrest
  · exact hrest

theorem KeepsBlocks.control (word : Word) : Keeps R (control word) := by
  cases word with
  | ifThen | whileDo | choose => exact hR.openBlock _
  | elseIf | otherwise =>
    exact (keeps_ask _).bind fun _ => (keeps_ask _).bind fun l =>
      (hR.goto l).bind fun _ => hR.link _
  | caseOf | default => exact (keeps_ask _).bind fun _ => hR.link _
  | breakOut => exact (keeps_ask _).bind fun l => hR.goto l
  | endIf | endWhile | endChoose => exact hR.closeBlock _ _
  | _ => exact keeps_pure ()

end

theorem whole_control (word : Word) : Whole D N (control word) :=
  KeepsBlocks.control ⟨whole_start, whole_linkBlock, whole_close, fun _ => whole_onStructures _,
    whole_onStructures _, whole_onSwitchEnds _, whole_goto⟩ word

/-! ## Commands -/

/-- The test in front of a jump, and the jump. -/
theorem emit_lastValue_eq_ok {c c' : Compiler} (hD : c.symbols.Within D) {opcode : Opcode}
    {missing : Cause} {s : Scanner} (h : emit (·.lastValue opcode missing s) c = .ok () c') :
    ∃ e : Expression, e.Legible ∧ (∀ x ∈ e.calls, D.Allow x) ∧
      c' = { c with program := c.program.writeAll (.code opcode :: e.items) } := by
  obtain ⟨items, hd, rfl⟩ := emit_eq_ok_iff.1 h
  obtain ⟨e, he, hcalls, rfl⟩ := Context.writes_lastValue hD hd
  exact ⟨e, he, hcalls, rfl⟩

/-- The jump that is written for a value and a label. -/
theorem whole_testValue {opcode : Opcode} (jump : Expression → Label → Planned)
    (hjump : ∀ e l, (jump e l).front = .code opcode :: e.items ∧ (jump e l).label? = some l ∧
      (e.Legible → (jump e l).Legible) ∧ (jump e l).calls = e.calls)
    (missing : Cause) (s : Scanner) : Whole D N (testValue opcode missing s) := by
  intro c a c' h hD
  obtain ⟨_, d, hemit, h⟩ := bind_eq_ok_iff.1 h
  obtain ⟨e, he, hcalls, rfl⟩ := emit_lastValue_eq_ok hD hemit
  obtain ⟨l, _, hask, h⟩ := bind_eq_ok_iff.1 h
  obtain ⟨_, rfl⟩ := ask_eq_ok_iff.1 hask
  obtain rfl := jumpTo_eq_ok_iff.1 h
  obtain ⟨hfront, hlabel, hlegible, hsame⟩ := hjump e l
  rw [← hsame] at hcalls
  have hw := Compiler.writes_withJump (c := c) hlabel (hlegible he)
  rw [hfront] at hw
  exact hw.grows (Plan.uses_jump hlabel hcalls) rfl rfl hD

theorem whole_condition (word : Word) (s : Scanner) : Whole D N (condition word s) :=
  whole_testValue .unless (fun _ _ => ⟨rfl, rfl, id, rfl⟩) _ s

theorem whole_enterIf (s : Scanner) : Whole D N (enterIf s) :=
  (whole_condition _ s).bind fun _ =>
    whole_modify (fun _ => rfl) (fun _ => rfl) (fun _ => rfl) fun _ => rfl

theorem whole_enterWhile (s : Scanner) : Whole D N (enterWhile s) := by
  refine keeps_get.bind fun c₀ => (whole_onWhileEnds _).bind fun _ => ?_
  intro c a c' h hD
  obtain ⟨_, d, hemit, hjump⟩ := bind_eq_ok_iff.1 h
  obtain ⟨e, he, hcalls, rfl⟩ := emit_lastValue_eq_ok hD hemit
  obtain ⟨l, _, hask, hset⟩ := bind_eq_ok_iff.1 hjump
  obtain ⟨_, rfl⟩ := ask_eq_ok_iff.1 hask
  obtain ⟨_, d, hmodify, hjump⟩ := bind_eq_ok_iff.1 hset
  obtain rfl := modify_eq_ok_iff.1 hmodify
  obtain rfl := jumpTo_eq_ok_iff.1 hjump
  have hw := Compiler.writes_withJump (c := c) (p := .unless e l) rfl he
  exact Compiler.Writes.grows ⟨hw.code, hw.fixups, hw.legible⟩ (Plan.uses_jump rfl hcalls)
    rfl rfl hD

theorem whole_leaveWhile : Whole D N leaveWhile :=
  (whole_onWhileEnds _).bind fun _ =>
    whole_modify (fun _ => rfl) (fun _ => rfl) (fun _ => rfl) fun _ => rfl

theorem whole_exitWhile : Whole D N exitWhile := by
  refine keeps_get.bind fun c => ?_
  split
  · exact whole_goto _
  · exact keeps_throw _

theorem whole_countSwitch : Whole D N countSwitch := by
  refine keeps_get.bind fun c => ?_
  split
  · split
    · split
      · exact keeps_throw _
      · exact whole_modify (fun _ => rfl) (fun _ => rfl) (fun _ => rfl) fun _ => rfl
    · exact keeps_pure ()
  · exact keeps_pure ()

/-- The two instructions that open a `choose`. -/
theorem writes_choose {ctx : Context} (hD : ctx.symbols.Within D) {s : Scanner}
    {items : List Item} (h : ctx.choice s = ⟨items, .ok ()⟩) :
    ∃ e : Expression, e.Legible ∧ (∀ x ∈ e.calls, D.Allow x) ∧
      items = [Instruction.push caseName, .assign .mov caseName e].flatMap Instruction.items := by
  obtain ⟨_, _, h₁, rfl⟩ := Draft.of_put_bind_eq_ok h
  obtain ⟨_, _, h₂, rfl⟩ := Draft.of_put_bind_eq_ok h₁
  obtain ⟨_, _, h₃, rfl⟩ := Draft.of_put_bind_eq_ok h₂
  obtain ⟨_, _, h₄, rfl⟩ := Draft.of_put_bind_eq_ok h₃
  obtain ⟨r, is, js, hr, hend, rfl⟩ := Draft.of_bind_eq_ok h₄
  cases r with
  | absent => exact absurd hend Draft.fail_ne_ok
  | found t ht =>
    obtain ⟨rfl, _⟩ := Draft.of_ofExcept_eq_ok hend
    obtain ⟨e, he, hcalls, rfl⟩ := Context.writes_value hD hr
    exact ⟨e, he, hcalls, by simp [Instruction.items, Assignment.opcode]⟩

/-- A `choose` stores the value under test. -/
theorem whole_enterChoose (hcase : N caseName) (s : Scanner) : Whole D N (enterChoose s) := by
  refine Keeps.bind (whole_emit fun ctx items a hD h => ?_) fun _ =>
    Keeps.bind (whole_onSymbols fun t u hu hD => ?_) fun _ =>
    (keeps_ask _).bind fun l => (whole_onSwitchEnds _).bind fun _ =>
    (whole_onStructures _).bind fun _ => whole_countSwitch.bind fun _ =>
    whole_modify (fun _ => rfl) (fun _ => rfl) (fun _ => rfl) fun _ => rfl
  · obtain ⟨e, he, hcalls, rfl⟩ := writes_choose hD h
    refine ⟨_, ?_, ?_, ?_, rfl⟩
    · exact List.forall_mem_cons.2 ⟨⟨rfl, rfl⟩, List.forall_mem_singleton.2 ⟨⟨rfl, he⟩, rfl⟩⟩
    · refine List.forall_mem_cons.2 ⟨?_, List.forall_mem_singleton.2 hcalls⟩
      intro x hx
      cases hx
    · refine List.forall_mem_cons.2 ⟨fun name hname => ?_,
        List.forall_mem_singleton.2 fun name hname => ?_⟩
      · cases hname
      · cases hname
        exact hcase
  · split at hu
    · cases hu
      exact hD
    · obtain ⟨_, _, rfl⟩ := Symbols.set_eq_ok_iff.1 hu
      exact hD.insert _ fun _ _ h => by cases h

theorem whole_enterCase (s : Scanner) : Whole D N (enterCase s) :=
  (whole_testValue .unlessCase (fun _ _ => ⟨rfl, rfl, id, rfl⟩) _ s).bind fun _ =>
    whole_modify (fun _ => rfl) (fun _ => rfl) (fun _ => rfl) fun _ => rfl

theorem whole_leaveChoose (hcase : N caseName) : Whole D N leaveChoose := by
  refine (keeps_ask _).bind fun _ =>
    Keeps.bind (whole_modify (fun _ => rfl) (fun _ => rfl) (fun _ => rfl) fun _ => rfl) fun _ =>
    whole_emit_plain (i := .pop caseName) ⟨rfl, rfl⟩ rfl (fun name hname => ?_)
      fun ctx items a h => ?_
  · cases hname
    exact hcase
  · obtain ⟨_, _, h₁, rfl⟩ := Draft.of_put_bind_eq_ok h
    obtain ⟨rfl, _⟩ := Draft.of_put_eq_ok h₁
    rfl

/-! ## Steps that write -/

/-- The relation does not look at what is written: at the code, at the blocks and at the
conditions and loops that are open. -/
class Overlooks (R : Compiler → Compiler → Prop) : Prop where
  written : ∀ c program fixups blocks, R c { c with program, fixups, blocks }
  conditions : ∀ c ifDepth switchesInIf, R c { c with ifDepth, switchesInIf }
  loops : ∀ c whileEnd whileEnds, R c { c with whileEnd, whileEnds }

section
variable {α : Type} {R : Compiler → Compiler → Prop} [Overlooks R]

theorem keeps_emit (f : Context → Draft α) : Keeps R (emit f) := by
  intro c a c' h
  obtain ⟨_, _, rfl⟩ := emit_eq_ok_iff.1 h
  exact Overlooks.written c _ c.fixups c.blocks

theorem keeps_comment (s : String) : Keeps R (comment s) := by
  intro c a c' h
  obtain rfl := comment_eq_ok_iff.1 h
  exact Overlooks.written c _ c.fixups c.blocks

theorem keeps_jumpTo (l : Label) : Keeps R (jumpTo l) := by
  intro c a c' h
  obtain rfl := jumpTo_eq_ok_iff.1 h
  exact Overlooks.written c _ _ c.blocks

theorem keeps_onBlocks (word : Word) (f : Blocks → Nat → Except Error (Label × Blocks)) :
    Keeps R (onBlocks word f) := by
  intro c a c' h
  obtain ⟨_, _, _, rfl⟩ := onBlocks_eq_ok_iff.1 h
  exact Overlooks.written c _ c.fixups _

theorem keeps_onWhileEnds (x : EStateM Error (Stack (Option Label)) α) :
    Keeps R (onWhileEnds x) :=
  keeps_onStack (fun c _ => Overlooks.loops c c.whileEnd _) x

variable [IsTrans Compiler R]

theorem keeps_goto (l : Label) : Keeps R (goto l) :=
  (keeps_emit _).bind fun _ => keeps_jumpTo l

variable [Std.Refl R]

theorem keeps_testValue (opcode : Opcode) (missing : Cause) (s : Scanner) :
    Keeps R (testValue opcode missing s) :=
  (keeps_emit _).bind fun _ => (keeps_ask _).bind fun l => keeps_jumpTo l

theorem keeps_condition (word : Word) (s : Scanner) : Keeps R (condition word s) :=
  keeps_testValue .cmp _ s

theorem keeps_countSwitch : Keeps R countSwitch := by
  refine keeps_get.bind fun c => ?_
  split
  · split
    · split
      · exact keeps_throw _
      · exact keeps_modify fun c => Overlooks.conditions c c.ifDepth _
    · exact keeps_pure ()
  · exact keeps_pure ()

/-- The words of conditions and loops, and those that only write. -/
def branching : List Word :=
  [.block, .stop, .ifThen, .elseIf, .otherwise, .endIf, .whileDo, .endWhile, .exitWhile]

theorem keeps_branching {word : Word} (hword : word ∈ branching) (s : Scanner) :
    Keeps R (command word s) := by
  cases word with
  | block => exact keeps_ask fun c => .error (.of (.blockBreak c.blocks.info))
  | stop => exact (keeps_emit _).bind fun _ => keeps_ofExcept _
  | ifThen =>
    exact (keeps_condition _ s).bind fun _ =>
      keeps_modify fun c => Overlooks.conditions c (c.ifDepth + 1) _
  | elseIf => exact keeps_condition _ s
  | otherwise => exact keeps_ofExcept _
  | endIf => exact keeps_modify fun c => Overlooks.conditions c (c.ifDepth - 1) _
  | whileDo =>
    exact keeps_get.bind fun _ => (keeps_onWhileEnds _).bind fun _ => (keeps_emit _).bind fun _ =>
      (keeps_ask _).bind fun l =>
      Keeps.bind (keeps_modify fun c => Overlooks.loops c (some l) c.whileEnds) fun _ =>
      keeps_jumpTo l
  | endWhile =>
    exact (keeps_onWhileEnds _).bind fun l =>
      keeps_modify fun c => Overlooks.loops c l c.whileEnds
  | exitWhile =>
    refine keeps_get.bind fun c => ?_
    split
    · exact keeps_goto _
    · exact keeps_throw _
  | _ => exact absurd hword (by decide)

end

/-! ## Definitions -/

section
variable {R : Compiler → Compiler → Prop} [Std.Refl R]

theorem keeps_required (missing : Cause) (word : Option (List Char × Scanner)) :
    Keeps R (required missing word) := by
  unfold required
  split
  · exact keeps_pure _
  · exact keeps_throw _

variable [IsTrans Compiler R]

/-- The end of a constant's value, once the step behind it is known. -/
theorem keeps_stepped {word : String} (hinsert : ∀ n, Keeps R (onSymbols fun symbols =>
      .ok (symbols.insert word (.constant (.number n))))) (constant : Constant) (t : Scanner)
    (step : Int64) : Keeps R (match constant with
      | .number n => do
        onSymbols fun symbols => .ok (symbols.insert word (.constant (.number (n + step))))
        return (constant, t)
      | .text _ => throw (.of (.constantNotNumeric word)) : Compile (Constant × Scanner)) := by
  split
  · exact (hinsert _).bind fun _ => keeps_pure _
  · exact keeps_throw _

theorem keeps_constantValue (hinsert : ∀ word n, Keeps R (onSymbols fun symbols =>
      .ok (symbols.insert word (.constant (.number n))))) (s : Scanner) :
    Keeps R (constantValue s) := by
  refine (keeps_required _ _).bind fun r => ?_
  dsimp only
  split
  · split
    · exact keeps_pure _
    · exact keeps_throw _
  · refine keeps_get.bind fun c => ?_
    split
    · split
      · exact keeps_pure _
      · split
        · exact (keeps_pure _).bind (keeps_stepped (hinsert _) _ _)
        · exact (keeps_pure _).bind (keeps_stepped (hinsert _) _ _)
        · exact (keeps_throw _).bind (keeps_stepped (hinsert _) _ _)
    · exact keeps_throw _
    · exact keeps_throw _

theorem keeps_defineConstant (hvalue : ∀ s, Keeps R (constantValue s))
    (hset : ∀ name (q : Constant × Scanner), Keeps R (do
      ofExcept q.2.expectEnd
      comment ("define " ++ name ++ " " ++ q.1.shown)
      onSymbols (·.set name (.constant q.1)))) (s : Scanner) : Keeps R (defineConstant s) := by
  refine (keeps_required _ _).bind fun r => ?_
  dsimp only
  split
  · split
    · exact (keeps_pure _).bind (hset _)
    · exact (keeps_throw _).bind (hset _)
  · exact (hvalue _).bind (hset _)

end

/-- Behind the name of a variable, at which the scanner stands, an operator assigns. -/
def Assigning (s : Scanner) : Prop :=
  ((s.skip blanks).operator? ['=', '+', '-', '*', '/', '%']).isSome

/-- What stands behind the name of a variable stores into it, if anything. -/
theorem whole_assignment {name : String} {s : Scanner} (h : Assigning s → N name) :
    Whole D N (emit (·.assignment name s)) := by
  refine whole_emit fun ctx items a hD ha => ?_
  by_cases hassigning : Assigning s
  · obtain ⟨is, his, rfl⟩ := Context.writes_assignment hD ha
    refine ⟨is, fun i hi => ⟨(his i hi).1, ?_⟩, fun i hi => (his i hi).2.1,
      fun i hi other hother => ?_, rfl⟩
    · obtain ⟨_, _, rfl | rfl | ⟨_, _, rfl⟩⟩ := his i hi <;> rfl
    · obtain ⟨_, _, rfl | rfl | ⟨_, _, rfl⟩⟩ := his i hi <;> cases hother <;> exact h hassigning
  · rw [Assigning, Option.not_isSome_iff_eq_none] at hassigning
    rw [Context.assignment, hassigning] at ha
    obtain ⟨rfl, _⟩ := Draft.of_ofExcept_eq_ok ha
    exact ⟨[], by simp, by simp, by simp, rfl⟩

theorem required_eq_ok {missing : Cause} {word : Option (List Char × Scanner)}
    {r : String × Scanner} {c c' : Compiler} (h : required missing word c = .ok r c') :
    ∃ cs, word = some (cs, r.2) ∧ r.1 = String.ofList cs ∧ c' = c := by
  unfold required at h
  split at h
  · obtain ⟨rfl, rfl⟩ := pure_eq_ok_iff.1 h
    exact ⟨_, rfl, rfl, rfl⟩
  · exact absurd h throw_ne_ok

theorem whole_defineVariable {s : Scanner}
    (h : ∀ cs t, (s.skip blanks).word? ('=' :: blanks) = some (cs, t) → Assigning t →
      N (String.ofList cs)) : Whole D N (defineVariable s) := by
  intro c a c' hdefine
  obtain ⟨⟨name, t⟩, _, hrequired, h₁⟩ := bind_eq_ok_iff.1 hdefine
  obtain ⟨cs, hword, hname, rfl⟩ := required_eq_ok hrequired
  dsimp only at hword hname
  subst hname
  exact ((whole_set _ (by simp)).bind fun _ => (whole_comment _).bind fun _ =>
    whole_assignment (h cs t hword)) _ _ _ h₁

theorem whole_constantValue (s : Scanner) : Whole D N (constantValue s) :=
  keeps_constantValue (fun _ _ => whole_insert _ (by simp)) s

theorem whole_defineConstant (s : Scanner) : Whole D N (defineConstant s) :=
  keeps_defineConstant whole_constantValue (fun _ _ => (keeps_ofExcept _).bind fun _ =>
    (whole_comment _).bind fun _ => whole_set _ (by simp)) s

/-- The words behind a `declare`, read in the state `c`, bind a function number to a
shape. -/
def Declares (s : Scanner) (c : Compiler) (code : UInt16) (params : List Param) : Prop :=
  ∃ name shape t u constant v c',
    (s.skip blanks).word? blanks = some (name, t) ∧
    (t.skip blanks).word? blanks = some (shape, u) ∧ Param.shape shape = .ok params ∧
    constantValue u c = .ok (constant, v) c' ∧ functionCode constant = .ok code

/-- A declaration makes the function known that its words bind, and no other. -/
theorem declareFunction_grows {s : Scanner} {c c' : Compiler}
    (hD : ∀ code params, Declares s c code params → D code params)
    (h : declareFunction s c = .ok () c') : c.Grows D N c' := by
  obtain ⟨⟨name, t⟩, _, hn, h₁⟩ := bind_eq_ok_iff.1 h
  obtain ⟨cs, hname, _, rfl⟩ := required_eq_ok hn
  obtain ⟨⟨shape, u⟩, _, hs, h₂⟩ := bind_eq_ok_iff.1 h₁
  obtain ⟨ds, hshape, hds, rfl⟩ := required_eq_ok hs
  obtain ⟨params, _, hp, h₃⟩ := bind_eq_ok_iff.1 h₂
  obtain ⟨hparams, rfl⟩ := ofExcept_eq_ok_iff.1 hp
  obtain ⟨⟨constant, v⟩, d, hconstant, h₄⟩ := bind_eq_ok_iff.1 h₃
  obtain ⟨code, _, hc, h₅⟩ := bind_eq_ok_iff.1 h₄
  obtain ⟨hcode, rfl⟩ := ofExcept_eq_ok_iff.1 hc
  have hfunction : D code params := by
    dsimp only at hds hparams
    rw [hds, String.toList_ofList] at hparams
    exact hD code params ⟨cs, ds, t, u, constant, v, _, hname, hshape, hparams, hconstant, hcode⟩
  refine (whole_constantValue u _ _ _ hconstant).trans ?_
  have hset : ∀ w : Scanner, Whole D N (do
      ofExcept w.expectEnd
      comment ("declare " ++ name ++ " " ++ shape ++ " " ++ toString code.toNat)
      onSymbols (·.set name (.function code params))) := fun w =>
    (keeps_ofExcept _).bind fun _ => (whole_comment _).bind fun _ =>
      whole_onSymbols fun t u hu hwithin => by
        obtain ⟨_, _, rfl⟩ := Symbols.set_eq_ok_iff.1 hu
        refine hwithin.insert name fun _ _ heq => ?_
        cases heq
        exact hfunction
  have hmark : Whole D N (modify fun c : Compiler =>
      { c with blockChecked := c.blockChecked.insert code }) :=
    whole_modify (fun _ => rfl) (fun _ => rfl) (fun _ => rfl) fun _ => rfl
  refine (?_ : Whole D N _) _ _ _ h₅
  dsimp only
  split
  · split
    · exact hmark.bind fun _ => (keeps_pure _).bind hset
    · exact (keeps_throw _).bind hset
  · exact (keeps_pure _).bind hset

theorem whole_copySymbol (s : Scanner) : Whole D N (copySymbol s) := by
  refine (keeps_required _ _).bind fun r => (keeps_required _ _).bind fun q =>
    (keeps_ofExcept _).bind fun _ => (whole_comment _).bind fun _ =>
    whole_onSymbols fun t u hu hD => ?_
  -- a copied function is one that was known before
  unfold Symbols.copy at hu
  split at hu
  · rename_i symbol hsymbol
    obtain ⟨_, _, rfl⟩ := Symbols.set_eq_ok_iff.1 hu
    refine hD.insert _ fun code params heq => hD q.1 code params ?_
    rw [hsymbol, heq]
  · cases hu

/-- Every command but `declare`, when it succeeds, writes whole instructions.  Of them,
`var` stores into the variable that it declares, where an operator follows, and the ends of
a `choose` store the value under test. -/
theorem whole_command {word : Word} {s : Scanner} (hword : word ≠ .declare) (hcase : N caseName)
    (hvar : word = .var → ∀ cs t, (s.skip blanks).word? ('=' :: blanks) = some (cs, t) →
      Assigning t → N (String.ofList cs)) : Whole D N (command word s) := by
  cases word with
  | declare => exact absurd rfl hword
  | block => exact keeps_ask fun c => .error (.of (.blockBreak c.blocks.info))
  | stop =>
    refine Keeps.bind (whole_emit_plain (i := .stop) ⟨trivial, rfl⟩ rfl (fun _ hname => ?_)
      fun ctx items a h => ?_) fun _ => keeps_ofExcept _
    · cases hname
    · obtain ⟨rfl, _⟩ := Draft.of_put_eq_ok h
      rfl
  | var => exact whole_defineVariable (hvar rfl)
  | ifThen => exact whole_enterIf s
  | elseIf => exact whole_condition _ s
  | otherwise => exact keeps_ofExcept _
  | endIf | breakOut | default =>
    exact whole_modify (fun _ => rfl) (fun _ => rfl) (fun _ => rfl) fun _ => rfl
  | define => exact whole_defineConstant s
  | defineCommand => exact whole_copySymbol s
  | choose => exact whole_enterChoose hcase s
  | caseOf => exact whole_enterCase s
  | endChoose => exact whole_leaveChoose hcase
  | whileDo => exact whole_enterWhile s
  | endWhile => exact whole_leaveWhile
  | exitWhile => exact whole_exitWhile

end Compile

end ScriptMachine
