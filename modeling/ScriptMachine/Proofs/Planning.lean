/-
  ScriptMachine.Proofs.Planning

  Instructions before their jumps are filled in.  A planned instruction names the
  label it jumps to; written with placeholders, a plan has the bytes that the
  compiler writes, and its jump operands are the fixups that the compiler notes.
  Resolving these fixups gives the bytes of the same plan with the addresses of
  the labels in place of the placeholders (`resolveFixups_plan`): nothing but the
  jump operands changes.
-/

import Mathlib.Algebra.Ring.Nat
import ScriptMachine.Proofs.Encoding
import ScriptMachine.Scope.Fixups

namespace ScriptMachine

/-- The address an instruction may jump to. -/
def Instruction.dest? : Instruction → Option Int64
  | unlessGoto _ dest | unlessCaseGoto _ dest | goto dest => some dest
  | _ => none

/-- The variable that an instruction stores into. -/
def Instruction.target? : Instruction → Option String
  | assign _ name _ | increment name | decrement name | pop name => some name
  | _ => none

/-- An instruction whose jump names a label. -/
inductive Planned where
  | plain (i : Instruction)
  | unless (condition : Expression) (label : Label)
  | unlessCase (value : Expression) (label : Label)
  | goto (label : Label)

namespace Planned

/-- The instruction, with the operand that `f` gives for its label. -/
def resolved (f : Label → Int64) : Planned → Instruction
  | plain i => i
  | .unless e l => .unlessGoto e (f l)
  | unlessCase e l => .unlessCaseGoto e (f l)
  | goto l => .goto (f l)

/-- The label of a jump. -/
def label? : Planned → Option Label
  | plain _ => none
  | .unless _ l | unlessCase _ l | goto l => some l

/-- Items in front of the jump operand; all items where there is none. -/
def front : Planned → List Item
  | plain i => i.items
  | .unless e _ => .code .cmp :: e.items
  | unlessCase e _ => .code .case :: e.items
  | goto _ => [.code .goto]

/-- The written instruction can be read back, and only labelled jumps jump. -/
def Legible : Planned → Prop
  | plain i => i.Legible ∧ i.dest? = none
  | .unless e _ | unlessCase e _ => e.Legible
  | goto _ => True

theorem items_resolved (f : Label → Int64) (p : Planned) :
    (p.resolved f).items = p.front ++ (p.label?.map fun l => Item.num (f l)).toList := by
  cases p <;> simp [resolved, front, label?, Instruction.items]

theorem legible_resolved {p : Planned} (f : Label → Int64) (h : p.Legible) :
    (p.resolved f).Legible := by
  cases p with
  | plain i => exact h.1
  | «unless» e l => exact h
  | unlessCase e l => exact h
  | goto l => exact h

theorem dest?_resolved {p : Planned} (f : Label → Int64) (h : p.Legible) :
    (p.resolved f).dest? = p.label?.map f := by
  cases p with
  | plain i => exact h.2
  | «unless» e l => rfl
  | unlessCase e l => rfl
  | goto l => rfl

/-- Of what labels stand for, a jump looks at its own alone. -/
theorem resolved_of_label {p : Planned} {l : Label} (h : p.label? = some l) (f : Label → Int64) :
    p.resolved f = p.resolved fun _ => f l := by
  cases p <;> cases h <;> rfl

/-- Bytes of a planned instruction. -/
def bytes (f : Label → Int64) (p : Planned) : List UInt8 :=
  (p.resolved f).bytes

theorem bytes_of_label {f : Label → Int64} {p : Planned} {l : Label} (h : p.label? = some l) :
    p.bytes f = Item.stream p.front ++ Item.bytes (.num (f l)) := by
  rw [bytes, Instruction.bytes, items_resolved, h]
  simp

theorem bytes_of_no_label {f : Label → Int64} {p : Planned} (h : p.label? = none) :
    p.bytes f = Item.stream p.front := by
  rw [bytes, Instruction.bytes, items_resolved, h]
  simp

/-- Number of bytes of a planned instruction, whatever its jump operand. -/
def size (p : Planned) : Nat :=
  (Item.stream p.front).length + if p.label?.isSome then 9 else 0

@[simp] theorem length_bytes (f : Label → Int64) (p : Planned) : (p.bytes f).length = p.size := by
  unfold size
  cases h : p.label? with
  | none => simp [bytes_of_no_label h]
  | some l => simp [bytes_of_label h, Item.bytes]

end Planned

/-! ## Plans -/

/-- Instructions planned in order. -/
abbrev Plan := List Planned

namespace Plan

/-- Number of bytes of a plan. -/
def size (ps : Plan) : Nat :=
  (ps.map Planned.size).sum

/-- Bytes of a plan. -/
def bytes (f : Label → Int64) (ps : Plan) : List UInt8 :=
  ps.flatMap (Planned.bytes f)

/-- The instructions of a plan. -/
def resolved (f : Label → Int64) (ps : Plan) : List Instruction :=
  ps.map (Planned.resolved f)

/-- The labels that the jumps of a plan name. -/
def labels (ps : Plan) : List Label :=
  ps.filterMap Planned.label?

/-- The fixups of a plan whose first byte is at `address`: one for each jump, at
its operand. -/
def fixups (address : Nat) : Plan → List Fixup
  | [] => []
  | p :: ps =>
    let rest := fixups (address + p.size) ps
    match p.label? with
    | none => rest
    | some l => ⟨address + (Item.stream p.front).length, l⟩ :: rest

/-- Every instruction of the plan can be read back. -/
def Legible (ps : Plan) : Prop :=
  ∀ p ∈ ps, p.Legible

@[simp] theorem size_nil : size [] = 0 := rfl

@[simp] theorem size_cons (p : Planned) (ps : Plan) : size (p :: ps) = p.size + size ps := rfl

@[simp] theorem size_append (ps qs : Plan) : size (ps ++ qs) = size ps + size qs := by
  simp [size]

@[simp] theorem bytes_nil (f : Label → Int64) : bytes f [] = [] := rfl

@[simp] theorem bytes_cons (f : Label → Int64) (p : Planned) (ps : Plan) :
    bytes f (p :: ps) = p.bytes f ++ bytes f ps := rfl

@[simp] theorem bytes_append (f : Label → Int64) (ps qs : Plan) :
    bytes f (ps ++ qs) = bytes f ps ++ bytes f qs :=
  List.flatMap_append

@[simp] theorem length_bytes (f : Label → Int64) (ps : Plan) : (bytes f ps).length = size ps := by
  induction ps with
  | nil => rfl
  | cons p ps ih => simp [ih]

@[simp] theorem fixups_nil (address : Nat) : fixups address [] = [] := rfl

theorem fixups_append (address : Nat) (ps qs : Plan) :
    fixups address (ps ++ qs) = fixups address ps ++ fixups (address + size ps) qs := by
  induction ps generalizing address with
  | nil => rfl
  | cons p ps ih =>
    simp only [List.cons_append, fixups, ih, size_cons, Nat.add_assoc]
    cases p.label? <;> rfl

theorem legible_nil : Legible [] := by
  intro p hp
  cases hp

theorem legible_append {ps qs : Plan} (hp : ps.Legible) (hq : qs.Legible) :
    Legible (ps ++ qs) := by
  intro p h
  rcases List.mem_append.1 h with h | h
  · exact hp p h
  · exact hq p h

theorem legible_singleton {p : Planned} (h : p.Legible) : Legible [p] := by
  intro q hq
  obtain rfl := List.mem_singleton.1 hq
  exact h

/-- The bytes of a plan are the bytes of its instructions. -/
theorem bytes_eq_stream (f : Label → Int64) (ps : Plan) :
    bytes f ps = Instruction.stream (resolved f ps) := by
  induction ps with
  | nil => rfl
  | cons p ps ih => rw [bytes_cons, ih]; rfl

theorem legible_resolved {ps : Plan} (f : Label → Int64) (h : ps.Legible) :
    ∀ i ∈ resolved f ps, i.Legible := by
  intro i hi
  obtain ⟨p, hp, rfl⟩ := List.mem_map.1 hi
  exact Planned.legible_resolved f (h p hp)

end Plan

/-! ## Filling in the jumps -/

/-- The operand written before the address of a label is known. -/
def Label.placeholder (l : Label) : Int64 :=
  Int64.ofNat l.packed

/-- The operand of a jump to a label: the address recorded for it. -/
def Blocks.operand (b : Blocks) (l : Label) : Int64 :=
  Int64.ofNat ((b.address? l).getD 0)

/-- Overwriting replaces as many bytes as are given. -/
theorem Code.toList_overwrite {c : Code} {before old new behind : List UInt8}
    (h : c.toList = before ++ old ++ behind) (hlen : new.length = old.length) :
    (c.overwrite before.length new).toList = before ++ new ++ behind := by
  induction new generalizing c before old with
  | nil =>
    obtain rfl := List.eq_nil_of_length_eq_zero hlen.symm
    exact h
  | cons b bs ih =>
    obtain ⟨o, os, rfl⟩ := List.exists_cons_of_length_eq_add_one hlen.symm
    have hset : (c.setIfInBounds before.length b).toList = (before ++ [b]) ++ os ++ behind := by
      rw [Array.toList_setIfInBounds, h]
      simp
    have hnext := ih hset (by simpa using hlen)
    rw [List.length_append, List.length_singleton] at hnext
    rw [Code.overwrite, hnext]
    simp

/-- A number item that stands in a program is found there. -/
theorem Program.hasNumber_of_toList {p : Program} {before behind : List UInt8} {n : Int64}
    (h : p.code.toList = before ++ Item.bytes (.num n) ++ behind) :
    p.hasNumber before.length = true := by
  have hholds : p.code.Holds before.length (Item.bytes (.num n)) := Code.holds_of_toList h
  have hsize := hholds.le_size (by simp [Item.bytes])
  have hlen : (Item.bytes (.num n)).length = 9 := by simp [Item.bytes]
  have hget : p.code[before.length]? = some Tag.num.toByte := by
    rw [← Array.getElem?_toList, h]
    simp [Item.bytes]
  rw [hlen] at hsize
  simp [hasNumber, hget, hsize]

/-- Replacing a number replaces the number item. -/
theorem Program.toList_setNumber {p : Program} {before behind : List UInt8} {m : Int64}
    (n : Int64) (h : p.code.toList = before ++ Item.bytes (.num m) ++ behind) :
    (p.setNumber before.length n).code.toList = before ++ Item.bytes (.num n) ++ behind := by
  have hsplit : p.code.toList = (before ++ [Tag.num.toByte]) ++
      Bytes.littleEndian 8 m.toUInt64.toNat ++ behind := by
    rw [h]
    simp [Item.bytes]
  have hover := Code.toList_overwrite hsplit
    (show (Bytes.littleEndian 8 n.toUInt64.toNat).length = _ by simp)
  rw [List.length_append, List.length_singleton] at hover
  rw [setNumber, hover]
  simp [Item.bytes]

/-- One fixup at a number item of a program: it fails if its label has no
address, and else puts the address there. -/
theorem Fixup.resolve_eq {blocks : Blocks} {l : Label} {p : Program}
    {before behind : List UInt8} {m : Int64}
    (h : p.code.toList = before ++ Item.bytes (.num m) ++ behind) :
    Fixup.resolve blocks ⟨before.length, l⟩ p =
      match blocks.address? l with
      | none => .error (.of (.unresolved l before.length)) p
      | some dest => .ok () ((p.setNumber before.length (Int64.ofNat dest)).comment
          (Fixup.note ⟨before.length, l⟩ dest)) := by
  unfold Fixup.resolve
  cases blocks.address? l with
  | none => rfl
  | some dest => simp only [Program.patch_of_hasNumber (Program.hasNumber_of_toList h)]

theorem resolveFixups_cons (blocks : Blocks) (f : Fixup) (fs : List Fixup) (p : Program) :
    resolveFixups blocks (f :: fs) p =
      match f.resolve blocks p with
      | .ok () p => resolveFixups blocks fs p
      | .error e p => .error e p := by
  show (f.resolve blocks >>= fun _ => resolveFixups blocks fs) p = _
  simp only [bind, EStateM.bind]
  cases f.resolve blocks p <;> rfl

/-- Resolving the fixups of a plan succeeds when every label of the plan has an
address, and then gives the plan with these addresses. -/
theorem resolveFixups_plan {blocks : Blocks} {ps : Plan} {p : Program} {done : List UInt8}
    (hp : p.code.toList = done ++ ps.bytes Label.placeholder)
    (hl : ∀ l ∈ ps.labels, (blocks.address? l).isSome) :
    ∃ q, resolveFixups blocks (ps.fixups done.length) p = .ok () q ∧
      q.code.toList = done ++ ps.bytes blocks.operand := by
  induction ps generalizing p done with
  | nil => exact ⟨p, rfl, hp⟩
  | cons x ps ih =>
    rw [Plan.bytes_cons] at hp
    cases hx : x.label? with
    | none =>
      have hfix : Plan.fixups done.length (x :: ps) =
          Plan.fixups (done ++ x.bytes blocks.operand).length ps := by
        simp [Plan.fixups, hx]
      have hsame : x.bytes Label.placeholder = x.bytes blocks.operand := by
        rw [Planned.bytes_of_no_label hx, Planned.bytes_of_no_label hx]
      rw [hsame, ← List.append_assoc] at hp
      obtain ⟨q, hq, hcode⟩ := ih hp fun l hm => hl l (by simp_all [Plan.labels])
      exact ⟨q, by rw [hfix, hq], by rw [hcode, Plan.bytes_cons, List.append_assoc]⟩
    | some l =>
      -- the placeholder of this jump, and the bytes on its two sides
      have hsplit : p.code.toList = (done ++ Item.stream x.front) ++
          Item.bytes (.num l.placeholder) ++ Plan.bytes Label.placeholder ps := by
        rw [hp, Planned.bytes_of_label hx]
        simp
      obtain ⟨dest, hdest⟩ := Option.isSome_iff_exists.1 (hl l (by simp [Plan.labels, hx]))
      have hoperand : blocks.operand l = Int64.ofNat dest := by simp [Blocks.operand, hdest]
      have hnext : (done ++ x.bytes blocks.operand) ++ Plan.bytes Label.placeholder ps =
          (done ++ Item.stream x.front) ++ Item.bytes (.num (Int64.ofNat dest)) ++
            Plan.bytes Label.placeholder ps := by
        rw [Planned.bytes_of_label hx, hoperand]
        simp
      have hfix : Plan.fixups done.length (x :: ps) =
          ⟨(done ++ Item.stream x.front).length, l⟩ ::
            Plan.fixups (done ++ x.bytes blocks.operand).length ps := by
        simp [Plan.fixups, hx]
      have hset := Program.toList_setNumber (Int64.ofNat dest) hsplit
      rw [← hnext] at hset
      obtain ⟨q, hq, hcode⟩ := ih
        (p := (p.setNumber (done ++ Item.stream x.front).length (Int64.ofNat dest)).comment
          (Fixup.note ⟨(done ++ Item.stream x.front).length, l⟩ dest))
        hset fun l hm => hl l (by simp_all [Plan.labels])
      refine ⟨q, ?_, by rw [hcode, Plan.bytes_cons, List.append_assoc]⟩
      rw [hfix, resolveFixups_cons, Fixup.resolve_eq hsplit, hdest]
      exact hq

/-- Fixups are resolved only when all their labels have addresses. -/
theorem isSome_address_of_resolveFixups {blocks : Blocks} {fs : List Fixup} {p q : Program}
    (h : resolveFixups blocks fs p = .ok () q) : ∀ f ∈ fs, (blocks.address? f.label).isSome := by
  induction fs generalizing p with
  | nil => intro f hf; cases hf
  | cons f fs ih =>
    rw [resolveFixups_cons] at h
    split at h
    · rename_i p' hf
      have hsome : (blocks.address? f.label).isSome := by
        unfold Fixup.resolve at hf
        split at hf
        · cases hf
        · rename_i dest hdest
          simp [hdest]
      intro g hg
      rcases List.mem_cons.1 hg with rfl | hg
      · exact hsome
      · exact ih h g hg
    · cases h

theorem Plan.labels_fixups (address : Nat) (ps : Plan) :
    (Plan.fixups address ps).map Fixup.label = Plan.labels ps := by
  induction ps generalizing address with
  | nil => rfl
  | cons p ps ih =>
    simp only [Plan.fixups, Plan.labels, List.filterMap_cons]
    cases p.label? with
    | none => exact ih _
    | some l => exact congrArg (l :: ·) (ih _)

end ScriptMachine
