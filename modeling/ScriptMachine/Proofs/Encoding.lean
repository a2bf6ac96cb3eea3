/-
  ScriptMachine.Proofs.Encoding

  The written form of instruction trees.  Every operand, expression and
  instruction is a list of items, and decoding the bytes of these items gives the
  tree again (`instruction_of_holds`); hence the bytes of a list of instructions
  decode to exactly that list, each instruction behind the bytes of those before
  it (`instructions_of_toList`).

  A tree is legible when its written form can be told apart: texts fit their
  length field, arguments have an emitted parameter type, and the closing mark
  stands nowhere but at the end of an expression.
-/

import ScriptMachine.Proofs.Reading
import ScriptMachine.Stream.Disassembly

namespace ScriptMachine

/-! ## Items of a tree -/

mutual

/-- Items of an operand. -/
def Operand.items : Operand → List Item
  | .str s => [.str s]
  | .num n => [.num n]
  | .var name => [.var name]
  | .call code args => .call :: .code .func :: .func code :: args.items

/-- Items of the arguments of a call, with their end mark. -/
def Args.items : Args → List Item
  | .nil => [.paramsEnd]
  | .cons p e rest => .param p :: (e.items ++ rest.items)

/-- Items of an expression, with its closing mark. -/
def Expression.items : Expression → List Item
  | .last o => o.items ++ [.operator .close]
  | .more o op rest => o.items ++ .operator op :: rest.items

end

mutual

/-- The written operand can be read back. -/
def Operand.Legible : Operand → Prop
  | .str s => Item.textFits s = true
  | .num _ => True
  | .var name => Item.textFits name = true
  | .call _ args => args.Legible

/-- The written arguments can be read back. -/
def Args.Legible : Args → Prop
  | .nil => True
  | .cons p e rest => p.isEmitted = true ∧ e.Legible ∧ rest.Legible

/-- The written expression can be read back. -/
def Expression.Legible : Expression → Prop
  | .last o => o.Legible
  | .more o op rest => op ≠ .close ∧ o.Legible ∧ rest.Legible

end

namespace Instruction

/-- Items of an instruction. -/
def items : Instruction → List Item
  | stop => [.code .stop]
  | assign how name e => .code how.opcode :: .var name :: e.items
  | increment name => [.code .inc, .var name]
  | decrement name => [.code .dec, .var name]
  | unlessGoto e dest => .code .cmp :: (e.items ++ [.num dest])
  | unlessCaseGoto e dest => .code .case :: (e.items ++ [.num dest])
  | goto dest => [.code .goto, .num dest]
  | func code args => .code .func :: .func code :: args.items
  | push name => [.code .push, .var name]
  | pop name => [.code .pop, .var name]

/-- The written instruction can be read back. -/
def Legible : Instruction → Prop
  | stop | goto _ => True
  | assign _ name e => Item.textFits name = true ∧ e.Legible
  | increment name | decrement name | push name | pop name => Item.textFits name = true
  | unlessGoto e _ | unlessCaseGoto e _ => e.Legible
  | func _ args => args.Legible

end Instruction

/-! ## Bytes of items -/

/-- Bytes of a list of items. -/
def Item.stream (is : List Item) : List UInt8 :=
  is.flatMap Item.bytes

namespace Item

@[simp] theorem stream_nil : stream [] = [] := rfl

@[simp] theorem stream_cons (i : Item) (is : List Item) : stream (i :: is) = i.bytes ++ stream is :=
  rfl

@[simp] theorem stream_append (is js : List Item) : stream (is ++ js) = stream is ++ stream js :=
  List.flatMap_append

end Item

/-- Bytes of an instruction. -/
def Instruction.bytes (i : Instruction) : List UInt8 :=
  Item.stream i.items

@[simp] theorem Program.toList_write (p : Program) (i : Item) :
    (p.write i).code.toList = p.code.toList ++ i.bytes := by
  simp [Program.write]

@[simp] theorem Program.toList_writeAll (p : Program) (is : List Item) :
    (p.writeAll is).code.toList = p.code.toList ++ Item.stream is := by
  induction is generalizing p with
  | nil => simp [Program.writeAll]
  | cons i is ih =>
    have hcons : p.writeAll (i :: is) = (p.write i).writeAll is := rfl
    rw [hcons, ih, Program.toList_write, Item.stream_cons, List.append_assoc]

/-- Every instruction begins with its opcode. -/
theorem Instruction.bytes_eq (i : Instruction) :
    ∃ rest, i.bytes = Item.bytes (.code i.opcode) ++ Item.stream rest ∧
      i.items = .code i.opcode :: rest := by
  cases i <;> exact ⟨_, rfl, rfl⟩

theorem Instruction.two_le_length_bytes (i : Instruction) : 2 ≤ i.bytes.length := by
  obtain ⟨rest, h, _⟩ := i.bytes_eq
  rw [h, List.length_append]
  simp [Item.bytes]

/-- The instruction stands in the stream at `p` and ends at `q`. -/
structure Code.Has (c : Code) (p : Nat) (i : Instruction) (q : Nat) : Prop where
  legible : i.Legible
  holds : c.Holds p i.bytes
  next : q = p + i.bytes.length

/-! ## Decoding expressions -/

namespace Code

variable {c : Code}

mutual

theorem operand_of_holds {p : Nat} : ∀ {o : Operand}, o.Legible → c.Holds p (Item.stream o.items) →
    Reads (c.operand p) o (p + (Item.stream o.items).length)
  | .str s, hl, h => by
    simp only [Operand.Legible] at hl
    simp only [Operand.items, Item.stream_cons, Item.stream_nil, List.append_nil] at h ⊢
    obtain ⟨htag, htext⟩ := holds_cons_iff.1 h
    rw [operand]
    refine (tag_of_holds htag).bind fun _ => (text_of_holds hl htext).bind fun _ => .pure ?_
    simp only [Past.trans, Item.bytes, List.length_cons]
    omega
  | .num n, _, h => by
    simp only [Operand.items, Item.stream_cons, Item.stream_nil, List.append_nil] at h ⊢
    obtain ⟨htag, hnumber⟩ := holds_cons_iff.1 h
    rw [operand]
    refine (tag_of_holds htag).bind fun _ => (number_of_holds hnumber).bind fun _ => .pure ?_
    simp [Past.trans, Item.bytes]
  | .var name, hl, h => by
    simp only [Operand.Legible] at hl
    simp only [Operand.items, Item.stream_cons, Item.stream_nil, List.append_nil] at h ⊢
    obtain ⟨htag, htext⟩ := holds_cons_iff.1 h
    rw [operand]
    refine (tag_of_holds htag).bind fun _ => (text_of_holds hl htext).bind fun _ => .pure ?_
    simp only [Past.trans, Item.bytes, List.length_cons]
    omega
  | .call code args, hl, h => by
    rw [Operand.Legible] at hl
    simp only [Operand.items, Item.stream_cons] at h ⊢
    have hcode := h.append_right
    have hfunc := hcode.append_right
    have hargs := hfunc.append_right
    rw [operand]
    refine (tag_of_holds (t := .call) h.append_left).bind fun _ =>
      (opcode_of_holds hcode.append_left).bind fun _ => ?_
    simp only [if_true]
    refine (word_of_holds hfunc.append_left).bind fun _ =>
      (args_of_holds hl hargs).bind fun _ => .pure ?_
    simp only [Past.trans, List.length_append]
    omega

theorem args_of_holds {p : Nat} : ∀ {as : Args}, as.Legible → c.Holds p (Item.stream as.items) →
    Reads (c.args p) as (p + (Item.stream as.items).length)
  | .nil, _, h => by
    rw [args]
    refine (byte_of_holds (b := paramsEnd) h).bind fun _ => ?_
    simp only [if_true]
    exact .pure rfl
  | .cons param e rest, hl, h => by
    obtain ⟨hparam, he, hrest⟩ := hl
    simp only [Args.items, Item.stream_cons, Item.stream_append] at h ⊢
    have hexpr := h.append_right
    have hof : Param.ofByte? param.toByte = some param :=
      Param.ofByte?_eq_some_iff.2 ⟨rfl, hparam⟩
    have hne : param.toByte ≠ paramsEnd := by
      intro hb
      rw [hb, ofByte?_paramsEnd] at hof
      cases hof
    rw [args]
    refine (byte_of_holds (b := param.toByte) h.append_left).bind fun _ => ?_
    simp only [hne, if_false, hof]
    refine (expression_of_holds he hexpr.append_left).bind fun _ =>
      (args_of_holds hrest hexpr.append_right).bind fun _ => .pure ?_
    simp only [Past.trans, List.length_append]
    omega

theorem expression_of_holds {p : Nat} : ∀ {e : Expression}, e.Legible →
    c.Holds p (Item.stream e.items) → Reads (c.expression p) e (p + (Item.stream e.items).length)
  | .last o, hl, h => by
    rw [Expression.Legible] at hl
    simp only [Expression.items, Item.stream_append] at h ⊢
    rw [expression]
    refine (operand_of_holds hl h.append_left).bind fun _ =>
      (byte_of_holds (b := Operator.close.toByte) h.append_right).bind fun _ => ?_
    simp only [Operator.ofByte?_toByte]
    refine .pure ?_
    rw [List.length_append]
    rfl
  | .more o op rest, hl, h => by
    obtain ⟨hop, ho, hrest⟩ := hl
    simp only [Expression.items, Item.stream_append, Item.stream_cons] at h ⊢
    have htail := h.append_right
    rw [expression]
    refine (operand_of_holds ho h.append_left).bind fun _ =>
      (byte_of_holds (b := op.toByte) htail.append_left).bind fun _ => ?_
    simp only [Operator.ofByte?_toByte]
    refine (expression_of_holds hrest htail.append_right).bind fun _ => .pure ?_
    simp only [Past.trans, List.length_append]
    omega

end

/-! ## Decoding instructions -/

theorem assignment_of_holds {p : Nat} (how : Assignment) {name : String} {e : Expression}
    (hn : Item.textFits name = true) (hl : e.Legible)
    (h : c.Holds p (Item.stream (.var name :: e.items))) :
    Reads (c.assignment how p) (.assign how name e)
      (p + (Item.stream (.var name :: e.items)).length) := by
  rw [Item.stream_cons] at h ⊢
  refine (taggedName_of_holds hn h.append_left).bind fun _ =>
    (expression_of_holds hl h.append_right).bind fun _ => .pure ?_
  simp only [Past.trans, List.length_append]
  omega

/-- The operands behind an opcode, which may take no bytes at all. -/
theorem operands_of_holds {p : Nat} {i : Instruction} {rest : List Item} (hl : i.Legible)
    (hi : i.items = .code i.opcode :: rest) (h : c.Holds p (Item.stream rest)) :
    ∃ hq, c.operands i.opcode p = .ok (i, ⟨p + (Item.stream rest).length, hq⟩) := by
  cases i with
  | stop =>
    obtain rfl : [] = rest := (List.cons.inj hi).2
    exact ⟨_, rfl⟩
  | assign how name e =>
    obtain rfl : .var name :: e.items = rest := (List.cons.inj hi).2
    obtain ⟨hq, eq⟩ := assignment_of_holds how hl.1 hl.2 h
    refine ⟨⟨by omega, by omega⟩, ?_⟩
    cases how <;> simp only [operands, Instruction.opcode, Assignment.opcode, eq] <;> rfl
  | increment name | decrement name | push name | pop name =>
    obtain rfl : [.var name] = rest := (List.cons.inj hi).2
    rw [Item.stream_cons, Item.stream_nil, List.append_nil] at h ⊢
    obtain ⟨hq, eq⟩ := taggedName_of_holds hl h
    refine ⟨⟨by omega, by omega⟩, ?_⟩
    simp only [operands, Instruction.opcode, eq]
    rfl
  | unlessGoto e dest | unlessCaseGoto e dest =>
    obtain rfl : e.items ++ [.num dest] = rest := (List.cons.inj hi).2
    rw [Item.stream_append] at h ⊢
    obtain ⟨_, ee⟩ := expression_of_holds hl h.append_left
    obtain ⟨_, en⟩ := taggedNumber_of_holds (n := dest) (by simpa using h.append_right)
    have hnum : (Item.stream [.num dest]).length = 9 := by simp [Item.bytes]
    rw [List.length_append, hnum]
    refine ⟨⟨by omega, by omega⟩, ?_⟩
    simp only [operands, Instruction.opcode, ee, bind, Except.bind, en]
    rfl
  | goto dest =>
    obtain rfl : [.num dest] = rest := (List.cons.inj hi).2
    obtain ⟨_, en⟩ := taggedNumber_of_holds (n := dest) (by simpa using h)
    have hnum : (Item.stream [.num dest]).length = 9 := by simp [Item.bytes]
    rw [hnum]
    refine ⟨⟨by omega, by omega⟩, ?_⟩
    simp only [operands, Instruction.opcode, en]
    rfl
  | func code args =>
    obtain rfl : .func code :: args.items = rest := (List.cons.inj hi).2
    rw [Item.stream_cons] at h ⊢
    have hword : (Item.bytes (.func code)).length = 2 := by simp [Item.bytes]
    have hargs := h.append_right
    rw [hword] at hargs
    obtain ⟨_, ew⟩ := word_of_holds h.append_left
    obtain ⟨_, ea⟩ := args_of_holds hl hargs
    rw [List.length_append, hword, ← Nat.add_assoc]
    refine ⟨⟨by omega, by omega⟩, ?_⟩
    simp only [operands, Instruction.opcode, ew, bind, Except.bind, ea]
    rfl

/-- The bytes of an instruction decode to the instruction. -/
theorem instruction_of_holds {p : Nat} {i : Instruction} (hl : i.Legible) (h : c.Holds p i.bytes) :
    Reads (c.instruction p) i (p + i.bytes.length) := by
  obtain ⟨rest, hbytes, hitems⟩ := i.bytes_eq
  rw [hbytes] at h ⊢
  have hcode : (Item.bytes (.code i.opcode)).length = 2 := rfl
  have hrest := h.append_right
  rw [hcode] at hrest
  obtain ⟨_, eo⟩ := operands_of_holds hl hitems hrest
  refine (opcode_of_holds h.append_left).bind fun _ => ?_
  simp only [eo, bind, Except.bind]
  refine .pure ?_
  rw [List.length_append, hcode]
  exact Nat.add_assoc _ _ _

end Code

/-! ## Lists of instructions -/

/-- Bytes of a list of instructions. -/
def Instruction.stream (is : List Instruction) : List UInt8 :=
  is.flatMap Instruction.bytes

/-- Instructions with the addresses they get when the first one is at `address`. -/
def Instruction.located (address : Nat) : List Instruction → List (Nat × Instruction)
  | [] => []
  | i :: is => (address, i) :: located (address + i.bytes.length) is

namespace Instruction

@[simp] theorem stream_nil : stream [] = [] := rfl

@[simp] theorem stream_cons (i : Instruction) (is : List Instruction) :
    stream (i :: is) = i.bytes ++ stream is := rfl

@[simp] theorem stream_append (is js : List Instruction) :
    stream (is ++ js) = stream is ++ stream js :=
  List.flatMap_append

theorem located_append (address : Nat) (is js : List Instruction) :
    located address (is ++ js) =
      located address is ++ located (address + (stream is).length) js := by
  induction is generalizing address with
  | nil => rfl
  | cons i is ih =>
    simp only [List.cons_append, located, ih, stream_cons, List.length_append, Nat.add_assoc]

theorem map_snd_located (address : Nat) (is : List Instruction) :
    (located address is).map Prod.snd = is := by
  induction is generalizing address with
  | nil => rfl
  | cons i is ih => rw [located, List.map_cons, ih]

theorem mem_of_mem_located {is : List Instruction} {address a : Nat} {i : Instruction}
    (h : (a, i) ∈ located address is) : i ∈ is := by
  rw [← map_snd_located address is]
  exact List.mem_map_of_mem h

end Instruction

namespace Code

theorem instructionsFrom_of_holds {c : Code} {p : Nat} {is : List Instruction}
    {done : List (Nat × Instruction)} (hl : ∀ i ∈ is, i.Legible)
    (h : c.Holds p (Instruction.stream is)) (hend : p + (Instruction.stream is).length = c.size) :
    c.instructionsFrom done p = .ok (done.reverse ++ Instruction.located p is) := by
  induction is generalizing p done with
  | nil =>
    have hat : c.atEnd p = true := by
      simp only [Instruction.stream_nil, List.length_nil] at hend
      simp only [atEnd, decide_eq_true_eq]
      omega
    rw [instructionsFrom, if_pos hat, Instruction.located, List.append_nil]
    rfl
  | cons i is ih =>
    rw [Instruction.stream_cons] at h hend
    rw [List.length_append] at hend
    have htwo := i.two_le_length_bytes
    have hat : ¬ c.atEnd p = true := by
      simp only [atEnd, decide_eq_true_eq]
      omega
    obtain ⟨hq, ei⟩ := instruction_of_holds (hl i (by simp)) h.append_left
    rw [instructionsFrom, if_neg hat, ei]
    simp only [bind, Except.bind]
    rw [ih (fun j hj => hl j (by simp [hj])) h.append_right (by omega), Instruction.located,
      List.reverse_cons, List.append_assoc, List.singleton_append]

/-- A stream that is the bytes of instructions decodes to these instructions. -/
theorem instructions_of_toList {c : Code} {is : List Instruction} (hl : ∀ i ∈ is, i.Legible)
    (h : c.toList = Instruction.stream is) :
    c.instructions = .ok (Instruction.located 0 is) := by
  have hholds : c.Holds 0 (Instruction.stream is) :=
    @holds_of_toList c [] _ [] (by simpa using h)
  have hsize : 0 + (Instruction.stream is).length = c.size := by
    rw [← h, Nat.zero_add]
    exact Array.length_toList
  exact instructionsFrom_of_holds hl hholds hsize

end Code

end ScriptMachine
