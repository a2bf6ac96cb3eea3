/-
  ScriptMachine.Proofs.Writing

  What the compiler writes is a plan.  `Compiler.Writes c ps c'` says that the
  state `c'` holds the bytes and the fixups of `c` with those of the plan `ps`
  behind them.  Every part of a command that ends an instruction writes such a
  plan, and where it records labels it records the boundaries of the plan
  (`Compiler.Grows`); the parts are put together along the sequence of steps.  All
  calls of the plan belong to a set `D` of functions, as long as the functions of the
  symbol table do, and it stores into variables of a set `N` only.
-/

import Mathlib.Order.Defs.Unbundled
import ScriptMachine.Proofs.Emission
import ScriptMachine.Proofs.Planning
import ScriptMachine.Proofs.Steps

namespace ScriptMachine

/-! ## Plans without jumps -/

/-- An instruction that neither jumps nor touches the stack, and does not stop. -/
def Instruction.IsStraight : Instruction → Prop
  | assign .. | increment _ | decrement _ | func .. => True
  | _ => False

/-- The plan of instructions that do not jump. -/
def Plan.ofInstructions (is : List Instruction) : Plan :=
  is.map .plain

theorem Plan.bytes_ofInstructions (f : Label → Int64) (is : List Instruction) :
    Plan.bytes f (Plan.ofInstructions is) = Item.stream (is.flatMap Instruction.items) := by
  induction is with
  | nil => rfl
  | cons i is ih =>
    rw [List.flatMap_cons, Item.stream_append, ← ih]
    rfl

theorem Plan.fixups_ofInstructions (address : Nat) (is : List Instruction) :
    Plan.fixups address (Plan.ofInstructions is) = [] := by
  induction is generalizing address with
  | nil => rfl
  | cons i is ih => exact ih _

theorem Plan.legible_ofInstructions {is : List Instruction}
    (h : ∀ i ∈ is, i.Legible ∧ i.dest? = none) : Plan.Legible (Plan.ofInstructions is) := by
  intro p hp
  obtain ⟨i, hi, rfl⟩ := List.mem_map.1 hp
  exact h i hi

theorem Instruction.IsStraight.dest? {i : Instruction} (h : i.IsStraight) : i.dest? = none := by
  cases i <;> first | rfl | exact h.elim

/-! ## Calls of plans -/

/-- The calls in a planned instruction. -/
def Planned.calls : Planned → List (UInt16 × Args)
  | plain i => i.calls
  | .unless e _ | unlessCase e _ => e.calls
  | goto _ => []

theorem Planned.calls_resolved (f : Label → Int64) (p : Planned) :
    (p.resolved f).calls = p.calls := by
  cases p <;> rfl

/-- All calls of the plan are calls of functions of the set. -/
def Plan.Calls (D : Signatures) (ps : Plan) : Prop :=
  ∀ p ∈ ps, ∀ x ∈ p.calls, D.Allow x

theorem Plan.calls_nil (D : Signatures) : Plan.Calls D [] :=
  fun _ hp => by cases hp

theorem Plan.calls_singleton {D : Signatures} {p : Planned} (h : ∀ x ∈ p.calls, D.Allow x) :
    Plan.Calls D [p] :=
  fun q hq => by rw [List.mem_singleton.1 hq]; exact h

theorem Plan.calls_append {D : Signatures} {ps qs : Plan} (hp : ps.Calls D) (hq : qs.Calls D) :
    Plan.Calls D (ps ++ qs) :=
  List.forall_mem_append.2 ⟨hp, hq⟩

theorem Plan.calls_ofInstructions {D : Signatures} {is : List Instruction}
    (h : ∀ i ∈ is, ∀ x ∈ i.calls, D.Allow x) : Plan.Calls D (Plan.ofInstructions is) := by
  intro p hp
  obtain ⟨i, hi, rfl⟩ := List.mem_map.1 hp
  exact h i hi

/-- The variable that a planned instruction stores into; a jump stores nothing. -/
def Planned.target? : Planned → Option String
  | plain i => i.target?
  | _ => none

theorem Planned.target?_resolved (f : Label → Int64) (p : Planned) :
    (p.resolved f).target? = p.target? := by
  cases p <;> rfl

theorem Planned.target?_of_label {p : Planned} {l : Label} (h : p.label? = some l) :
    p.target? = none := by
  cases p with
  | plain i => cases h
  | «unless» | unlessCase | goto => rfl

/-- All calls of the plan are calls of functions of `D`, and all variables that it stores
into are of `N`. -/
structure Plan.Uses (D : Signatures) (N : String → Prop) (ps : Plan) : Prop where
  calls : ps.Calls D
  targets : ∀ p ∈ ps, ∀ name, p.target? = some name → N name

section
variable {D : Signatures} {N : String → Prop}

theorem Plan.uses_nil (D : Signatures) (N : String → Prop) : Plan.Uses D N [] :=
  ⟨Plan.calls_nil D, List.forall_mem_nil _⟩

theorem Plan.uses_append {ps qs : Plan} (hp : ps.Uses D N) (hq : qs.Uses D N) :
    Plan.Uses D N (ps ++ qs) :=
  ⟨Plan.calls_append hp.calls hq.calls, List.forall_mem_append.2 ⟨hp.targets, hq.targets⟩⟩

/-- A jump uses what the expression in front of it calls. -/
theorem Plan.uses_jump {p : Planned} {l : Label} (hl : p.label? = some l)
    (h : ∀ x ∈ p.calls, D.Allow x) : Plan.Uses D N [p] where
  calls := Plan.calls_singleton h
  targets := List.forall_mem_singleton.2 fun name hname => by
    rw [Planned.target?_of_label hl] at hname
    cases hname

theorem Plan.uses_ofInstructions {is : List Instruction}
    (hcalls : ∀ i ∈ is, ∀ x ∈ i.calls, D.Allow x)
    (htargets : ∀ i ∈ is, ∀ name, i.target? = some name → N name) :
    Plan.Uses D N (Plan.ofInstructions is) where
  calls := Plan.calls_ofInstructions hcalls
  targets p hp := by
    obtain ⟨i, hi, rfl⟩ := List.mem_map.1 hp
    exact htargets i hi

end

/-- Giving a name a meaning that is no function, or one of the set. -/
theorem Symbols.Within.insert {t : Symbols} {D : Signatures} (h : t.Within D) (name : String)
    {s : Symbol} (hs : ∀ code params, s = .function code params → D code params) :
    (t.insert name s).Within D := by
  intro other code params hget
  rw [Symbols.get?_insert] at hget
  split at hget
  · exact hs code params (Option.some.inj hget)
  · exact h other code params hget

/-- What is written for the line that opens a `choose`. -/
def Context.choice (ctx : Context) (s : Scanner) : Draft Unit := do
  Draft.put (.code .push)
  Draft.put (.var caseName)
  Draft.put (.code .mov)
  Draft.put (.var caseName)
  match ← ctx.value s with
  | .found t _ => Draft.ofExcept t.expectEnd
  | .absent .. => Draft.fail (.of (.missingValueAfter .choose))

namespace Compiler

/-! ## Writing a plan -/

/-- `c'` holds what `c` holds, with the plan `ps` written behind. -/
structure Writes (c : Compiler) (ps : Plan) (c' : Compiler) : Prop where
  code : c'.program.code.toList = c.program.code.toList ++ ps.bytes Label.placeholder
  fixups : c'.fixups.toList = c.fixups.toList ++ ps.fixups c.program.position
  legible : ps.Legible

variable {c d e : Compiler} {ps qs : Plan}

theorem Writes.position (h : c.Writes ps d) :
    d.program.position = c.program.position + ps.size := by
  have hlen := congrArg List.length h.code
  rw [List.length_append, Plan.length_bytes] at hlen
  exact hlen

theorem Writes.none (hcode : d.program.code = c.program.code) (hfixups : d.fixups = c.fixups) :
    c.Writes [] d where
  code := by rw [hcode]; simp
  fixups := by rw [hfixups]; simp
  legible := Plan.legible_nil

theorem Writes.refl (c : Compiler) : c.Writes [] c :=
  .none rfl rfl

theorem Writes.trans (h : c.Writes ps d) (k : d.Writes qs e) : c.Writes (ps ++ qs) e where
  code := by rw [k.code, h.code, Plan.bytes_append, List.append_assoc]
  fixups := by rw [k.fixups, h.fixups, h.position, Plan.fixups_append, List.append_assoc]
  legible := Plan.legible_append h.legible k.legible

/-- A change of parts that hold no code, after writing. -/
theorem Writes.same (h : c.Writes ps d) (hcode : e.program.code = d.program.code)
    (hfixups : e.fixups = d.fixups) : c.Writes ps e where
  code := by rw [hcode]; exact h.code
  fixups := by rw [hfixups]; exact h.fixups
  legible := h.legible

/-- Writing instructions that do not jump. -/
theorem Writes.instructions {is : List Instruction}
    (hl : ∀ i ∈ is, i.Legible ∧ i.dest? = Option.none)
    (hcode : d.program.code.toList =
      c.program.code.toList ++ Item.stream (is.flatMap Instruction.items))
    (hfixups : d.fixups = c.fixups) : c.Writes (Plan.ofInstructions is) d where
  code := by rw [hcode, Plan.bytes_ofInstructions]
  fixups := by rw [hfixups, Plan.fixups_ofInstructions, List.append_nil]
  legible := Plan.legible_ofInstructions hl

/-- Writing a jump: what stands in front of its operand, and the operand. -/
theorem Writes.jump {p : Planned} {l : Label} (hl : p.label? = some l) (hp : p.Legible)
    (hcode : d.program.code.toList =
      c.program.code.toList ++ (Item.stream p.front ++ Item.bytes (.num l.placeholder)))
    (hfixups : d.fixups.toList =
      c.fixups.toList ++ [⟨c.program.position + (Item.stream p.front).length, l⟩]) :
    c.Writes [p] d where
  code := by rw [hcode, Plan.bytes_cons, Plan.bytes_nil, List.append_nil, Planned.bytes_of_label hl]
  fixups := by rw [hfixups, Plan.fixups, hl, Plan.fixups_nil]
  legible := Plan.legible_singleton hp

/-- The state after a jump was written: the items in front of its operand, a
placeholder and a fixup. -/
def withJump (c : Compiler) (items : List Item) (l : Label) : Compiler :=
  { c with
    fixups := c.fixups.push ⟨(c.program.writeAll items).position, l⟩
    program := (c.program.writeAll items).write (.num (Int64.ofNat l.packed)) }

theorem writes_withJump {p : Planned} {l : Label} (hl : p.label? = some l) (hp : p.Legible) :
    c.Writes [p] (c.withJump p.front l) := by
  have hposition : (c.program.writeAll p.front).position =
      c.program.position + (Item.stream p.front).length := by
    have hlen := congrArg List.length (Program.toList_writeAll c.program p.front)
    rw [List.length_append] at hlen
    exact hlen
  refine .jump hl hp ?_ ?_
  · show (Program.write _ _).code.toList = _
    rw [Program.toList_write, Program.toList_writeAll, List.append_assoc]
    rfl
  · show (c.fixups.push ⟨(c.program.writeAll p.front).position, l⟩).toList = _
    rw [Array.toList_push, hposition]

/-! ## Growing by whole instructions -/

/-- `c'` is `c` with whole instructions written behind; labels that are new are
recorded at boundaries of these instructions.  Where all known functions belong to
`D`, they still do, and only such functions are called; and only variables of `N` are
stored into. -/
def Grows (D : Signatures) (N : String → Prop) (c c' : Compiler) : Prop :=
  c.symbols.Within D → c'.symbols.Within D ∧ ∃ ps : Plan, c.Writes ps c' ∧ ps.Uses D N ∧
    ∀ l a, c'.blocks.address? l = some a → c.blocks.address? l = some a ∨
      ∃ qs rs, ps = qs ++ rs ∧ a = c.program.position + Plan.size qs

variable {D : Signatures} {N : String → Prop}

theorem Writes.grows (h : c.Writes ps d) (huses : ps.Uses D N) (hsymbols : d.symbols = c.symbols)
    (hblocks : d.blocks = c.blocks) : c.Grows D N d := by
  intro hD
  refine ⟨?_, ps, h, huses, fun l a hl => .inl ?_⟩
  · rw [hsymbols]
    exact hD
  · rw [← hblocks]
    exact hl

/-- A change of parts that hold neither code nor labels. -/
theorem Grows.same (hcode : d.program.code = c.program.code) (hfixups : d.fixups = c.fixups)
    (hblocks : d.blocks = c.blocks) (hsymbols : c.symbols.Within D → d.symbols.Within D) :
    c.Grows D N d := by
  intro hD
  refine ⟨hsymbols hD, [], .none hcode hfixups, Plan.uses_nil D N, fun l a hl => .inl ?_⟩
  rw [← hblocks]
  exact hl

theorem Grows.refl (c : Compiler) : c.Grows D N c :=
  .same rfl rfl rfl id

theorem Grows.trans (h : c.Grows D N d) (k : d.Grows D N e) : c.Grows D N e := by
  intro hD
  obtain ⟨hd, ps, hw, huses, hlabels⟩ := h hD
  obtain ⟨he, qs, kw, kuses, klabels⟩ := k hd
  refine ⟨he, ps ++ qs, hw.trans kw, Plan.uses_append huses kuses, fun l a hl => ?_⟩
  rcases klabels l a hl with hl | ⟨as, bs, rfl, rfl⟩
  · rcases hlabels l a hl with hl | ⟨as, bs, rfl, rfl⟩
    · exact .inl hl
    · exact .inr ⟨as, bs ++ qs, List.append_assoc _ _ _, rfl⟩
  · refine .inr ⟨ps ++ as, bs, (List.append_assoc _ _ _).symm, ?_⟩
    rw [hw.position, Plan.size_append, Nat.add_assoc]

instance : Std.Refl (Grows D N) :=
  ⟨Grows.refl⟩

instance : IsTrans Compiler (Grows D N) :=
  ⟨fun _ _ _ => Grows.trans⟩

end Compiler

namespace Compile

variable {α β : Type}

/-! ## Steps that keep a relation -/

/-- A step that, when it succeeds, takes a state to one related to it by `R`. -/
def Keeps (R : Compiler → Compiler → Prop) (x : Compile α) : Prop :=
  ∀ c a c', x c = .ok a c' → R c c'

section
variable {R : Compiler → Compiler → Prop}

theorem Keeps.bind [IsTrans Compiler R] {x : Compile α} {f : α → Compile β} (hx : Keeps R x)
    (hf : ∀ a, Keeps R (f a)) : Keeps R (x >>= f) := by
  intro c b c' h
  obtain ⟨a, d, hxc, hfd⟩ := bind_eq_ok_iff.1 h
  exact IsTrans.trans c d c' (hx c a d hxc) (hf a d b c' hfd)

theorem keeps_throw (e : Error) : Keeps R (throw e : Compile α) :=
  fun _ _ _ h => absurd h throw_ne_ok

theorem Keeps.onLine {x : Compile α} (hx : Keeps R x) (file : String) (number : Nat)
    (text : List Char) : Keeps R (onLine file number text x) :=
  fun c a c' h => hx c a c' (onLine_eq_ok_iff.1 h)

theorem Keeps.inFragment {x : Compile α} (hx : Keeps R x) (text : List Char) :
    Keeps R (inFragment text x) :=
  fun c a c' h => hx c a c' (inFragment_eq_ok_iff.1 h)

theorem keeps_modify {f : Compiler → Compiler} (h : ∀ c, R c (f c)) : Keeps R (modify f) := by
  intro c a c' hc
  obtain rfl := modify_eq_ok_iff.1 hc
  exact h c

/-- A step on a stack of the state keeps what putting the stack back keeps. -/
theorem keeps_onStack {stack : Compiler → Stack β} {put : Compiler → Stack β → Compiler}
    (hput : ∀ c s, R c (put c s)) (x : EStateM Error (Stack β) α) :
    Keeps R (onStack stack put x) := by
  intro c a c' h
  obtain ⟨s, _, rfl⟩ := onStack_eq_ok_iff.1 h
  exact hput c s

variable [Std.Refl R]

theorem keeps_pure (a : α) : Keeps R (pure a) := by
  intro c b c' h
  obtain ⟨_, rfl⟩ := pure_eq_ok_iff.1 h
  exact Std.Refl.refl _

theorem keeps_get : Keeps R (get : Compile Compiler) := by
  intro c b c' h
  obtain ⟨_, rfl⟩ := get_eq_ok_iff.1 h
  exact Std.Refl.refl _

theorem keeps_ofExcept (x : Except Error α) : Keeps R (ofExcept x) := by
  intro c a c' h
  obtain ⟨_, rfl⟩ := ofExcept_eq_ok_iff.1 h
  exact Std.Refl.refl _

theorem keeps_ask (f : Compiler → Except Error α) : Keeps R (ask f) := by
  intro c a c' h
  obtain ⟨_, rfl⟩ := ask_eq_ok_iff.1 h
  exact Std.Refl.refl _

theorem keeps_forM [IsTrans Compiler R] {f : α → Compile Unit} (hf : ∀ a, Keeps R (f a))
    (as : List α) : Keeps R (as.forM f) := by
  induction as with
  | nil => exact keeps_pure ()
  | cons a as ih => exact (hf a).bind fun _ => ih

end

/-! ## Steps that grow the program -/

/-- A step that, when it succeeds, grows the program by whole instructions, with calls
of functions of `D` only, which store into variables of `N` only. -/
abbrev Whole (D : Signatures) (N : String → Prop) (x : Compile α) : Prop :=
  Keeps (Compiler.Grows D N) x

variable {D : Signatures} {N : String → Prop}

theorem whole_comment (s : String) : Whole D N (comment s) := by
  intro c a c' h
  obtain rfl := comment_eq_ok_iff.1 h
  exact .same rfl rfl rfl id

theorem whole_modify {f : Compiler → Compiler} (hprogram : ∀ c, (f c).program = c.program)
    (hfixups : ∀ c, (f c).fixups = c.fixups) (hblocks : ∀ c, (f c).blocks = c.blocks)
    (hsymbols : ∀ c, (f c).symbols = c.symbols) : Whole D N (modify f) := by
  refine keeps_modify fun c => .same (by rw [hprogram]) (hfixups c) (hblocks c) fun hD => ?_
  rw [hsymbols]
  exact hD

theorem whole_onSymbols {f : Symbols → Except Error Symbols}
    (hf : ∀ t u, f t = .ok u → t.Within D → u.Within D) : Whole D N (onSymbols f) := by
  intro c a c' h
  obtain ⟨_, hu, rfl⟩ := onSymbols_eq_ok_iff.1 h
  exact .same rfl rfl rfl (hf _ _ hu)

/-- Giving a name a meaning that is no function, whatever the name. -/
theorem whole_insert (name : String) {s : Symbol} (hs : ∀ code params, s ≠ .function code params) :
    Whole D N (onSymbols fun symbols => .ok (symbols.insert name s)) := by
  refine whole_onSymbols fun t u hu hD => ?_
  cases hu
  exact hD.insert name fun code params h => absurd h (hs code params)

theorem whole_set (name : String) {s : Symbol} (hs : ∀ code params, s ≠ .function code params) :
    Whole D N (onSymbols (·.set name s)) := by
  refine whole_onSymbols fun t u hu hD => ?_
  obtain ⟨_, _, rfl⟩ := Symbols.set_eq_ok_iff.1 hu
  exact hD.insert name fun code params h => absurd h (hs code params)

theorem whole_onStructures (x : EStateM Error (Stack Word) α) : Whole D N (onStructures x) :=
  keeps_onStack (fun _ _ => .same rfl rfl rfl id) x

theorem whole_onSwitchEnds (x : EStateM Error (Stack Label) α) : Whole D N (onSwitchEnds x) :=
  keeps_onStack (fun _ _ => .same rfl rfl rfl id) x

theorem whole_onWhileEnds (x : EStateM Error (Stack (Option Label)) α) :
    Whole D N (onWhileEnds x) :=
  keeps_onStack (fun _ _ => .same rfl rfl rfl id) x

/-- A change of the blocks records labels at the end of the program. -/
theorem whole_onBlocks {word : Word} {f : Blocks → Nat → Except Error (Label × Blocks)}
    (hf : ∀ b a l b', f b a = .ok (l, b') →
      ∀ m x, b'.address? m = some x → b.address? m = some x ∨ x = a) :
    Whole D N (onBlocks word f) := by
  intro c a c' h hD
  obtain ⟨l, blocks, hfc, rfl⟩ := onBlocks_eq_ok_iff.1 h
  refine ⟨hD, [], .none rfl rfl, Plan.uses_nil D N, fun m x hx => ?_⟩
  rcases hf _ _ _ _ hfc m x hx with hm | rfl
  · exact .inl hm
  · exact .inr ⟨[], [], rfl, rfl⟩

/-- Writing a draft of instructions that do not jump. -/
theorem whole_emit {f : Context → Draft α}
    (hf : ∀ ctx items a, ctx.symbols.Within D → f ctx = ⟨items, .ok a⟩ →
      ∃ is : List Instruction, (∀ i ∈ is, i.Legible ∧ i.dest? = none) ∧
        (∀ i ∈ is, ∀ x ∈ i.calls, D.Allow x) ∧
        (∀ i ∈ is, ∀ name, i.target? = some name → N name) ∧
        items = is.flatMap Instruction.items) : Whole D N (emit f) := by
  intro c a c' h hD
  obtain ⟨items, hd, rfl⟩ := emit_eq_ok_iff.1 h
  obtain ⟨is, hl, hcalls, htargets, rfl⟩ := hf _ _ _ hD hd
  have hw : c.Writes (Plan.ofInstructions is)
      { c with program := c.program.writeAll (is.flatMap Instruction.items) } :=
    .instructions hl (Program.toList_writeAll _ _) rfl
  exact hw.grows (Plan.uses_ofInstructions hcalls htargets) rfl rfl hD

/-- The same for a draft of one instruction without calls. -/
theorem whole_emit_plain {f : Context → Draft α} {i : Instruction}
    (hi : i.Legible ∧ i.dest? = none) (hcalls : i.calls = [])
    (htarget : ∀ name, i.target? = some name → N name)
    (hf : ∀ ctx items a, f ctx = ⟨items, .ok a⟩ → items = i.items) : Whole D N (emit f) := by
  refine whole_emit fun ctx items a _ h => ⟨[i], ?_, ?_, List.forall_mem_singleton.2 htarget, ?_⟩
  · intro j hj
    rw [List.mem_singleton.1 hj]
    exact hi
  · intro j hj
    rw [List.mem_singleton.1 hj, hcalls]
    intro x hx
    cases hx
  · rw [hf ctx items a h, List.flatMap_singleton]

end Compile

end ScriptMachine
