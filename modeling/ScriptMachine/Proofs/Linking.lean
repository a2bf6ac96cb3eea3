/-
  ScriptMachine.Proofs.Linking

  Filling in jumps changes jump operands and nothing else.  A fixup overwrites the eight
  bytes behind the tag of its number item (`Fixup.Covers`).  Where the items of all fixups
  stand apart, no fixup touches what another one wrote, nor the tag that shows it the place
  (`resolveFixups_apart`); so, if all labels have addresses, every operand reads as the address
  of its label, and if one has none, all bytes outside of the operands are still there
  (`Compile.fixups_resolved`).
-/

import ScriptMachine.Compiler.Script
import ScriptMachine.Proofs.Planning

namespace ScriptMachine

-- ============================================================================
-- Overwriting
-- ============================================================================

namespace Code

variable {code code' : Code} {position : Nat} {bs : List UInt8}

/-- The bytes in front of the new ones and behind them stay. -/
theorem getElem?_overwrite_outside {i : Nat} (h : i < position ∨ position + bs.length ≤ i) :
    (code.overwrite position bs)[i]? = code[i]? := by
  induction bs generalizing code position with
  | nil => rfl
  | cons b bs ih =>
    rw [List.length_cons] at h
    rw [overwrite, ih (by omega), Array.getElem?_setIfInBounds_ne (by omega)]

/-- The new bytes stand where they were put. -/
theorem getElem?_overwrite {i : Nat} (h : position + bs.length ≤ code.size) (hi : i < bs.length) :
    (code.overwrite position bs)[position + i]? = some bs[i] := by
  induction bs generalizing code position i with
  | nil => cases hi
  | cons b bs ih =>
    rw [List.length_cons] at h hi
    rw [overwrite]
    cases i with
    | zero =>
      rw [getElem?_overwrite_outside (by omega)]
      exact Array.getElem?_setIfInBounds_self_of_lt (by omega)
    | succ i =>
      have hsize : position + 1 + bs.length ≤ (code.setIfInBounds position b).size := by
        rw [Array.size_setIfInBounds]
        omega
      have hnext := ih hsize (Nat.lt_of_succ_lt_succ hi)
      rw [Nat.add_right_comm] at hnext
      exact hnext

/-- Bytes stand at a position when each of them does. -/
theorem holds_iff_getElem? :
    code.Holds position bs ↔ ∀ i (h : i < bs.length), code[position + i]? = some bs[i] := by
  simp only [Holds, List.prefix_iff_getElem?, List.getElem?_drop, Array.getElem?_toList]

theorem holds_overwrite (h : position + bs.length ≤ code.size) :
    (code.overwrite position bs).Holds position bs :=
  holds_iff_getElem?.2 fun _ hi => getElem?_overwrite h hi

/-- Streams that agree over a range hold the same bytes there. -/
theorem Holds.congr (h : code.Holds position bs)
    (hsame : ∀ i, position ≤ i → i < position + bs.length → code'[i]? = code[i]?) :
    code'.Holds position bs := by
  refine holds_iff_getElem?.2 fun i hi => ?_
  rw [hsame (position + i) (by omega) (by omega)]
  exact holds_iff_getElem?.1 h i hi

end Code

-- ============================================================================
-- One fixup
-- ============================================================================

/-- The byte belongs to the number that a fixup puts in. -/
def Fixup.Covers (f : Fixup) (i : Nat) : Prop :=
  f.address < i ∧ i < f.address + 9

/-- The number items of two fixups have no byte in common. -/
def Fixup.Apart (f g : Fixup) : Prop :=
  f.address + 9 ≤ g.address ∨ g.address + 9 ≤ f.address

namespace Program

variable {p q r : Program} {f : Fixup} {fs : List Fixup}

theorem hasNumber_iff {a : Nat} :
    p.hasNumber a = true ↔ p.code[a]? = some Tag.num.toByte ∧ a + 9 ≤ p.code.size := by
  simp [hasNumber]

/-- The stream is as long as before, and all bytes but the numbers of the fixups are those
from before. -/
structure Patched (fs : List Fixup) (p q : Program) : Prop where
  size : q.code.size = p.code.size
  same : ∀ i, (∀ f ∈ fs, ¬f.Covers i) → q.code[i]? = p.code[i]?

theorem Patched.refl (fs : List Fixup) (p : Program) : Patched fs p p :=
  ⟨rfl, fun _ _ => rfl⟩

theorem Patched.trans (h : Patched [f] p q) (k : Patched fs q r) : Patched (f :: fs) p r where
  size := k.size.trans h.size
  same i hi := by
    obtain ⟨hf, hfs⟩ := List.forall_mem_cons.1 hi
    rw [k.same i hfs, h.same i (List.forall_mem_singleton.2 hf)]

/-- A number item that stands apart is still found. -/
theorem Patched.hasNumber (h : Patched fs p q) {g : Fixup} (hg : p.hasNumber g.address = true)
    (hapart : ∀ f ∈ fs, f.Apart g) : q.hasNumber g.address = true := by
  obtain ⟨htag, hsize⟩ := hasNumber_iff.1 hg
  refine hasNumber_iff.2 ⟨?_, by rwa [h.size]⟩
  rw [h.same _ fun f hf hcovers => ?_, htag]
  have hf := hapart f hf
  unfold Fixup.Apart at hf
  unfold Fixup.Covers at hcovers
  omega

/-- A number that was put in apart is still there. -/
theorem Patched.holds (h : Patched fs p q) {g : Fixup} {n : Int64}
    (hg : p.code.Holds g.address (Item.bytes (.num n))) (hapart : ∀ f ∈ fs, g.Apart f) :
    q.code.Holds g.address (Item.bytes (.num n)) := by
  refine hg.congr fun i hle hlt => h.same i fun f hf hcovers => ?_
  have hlen : (Item.bytes (.num n)).length = 9 := by simp [Item.bytes]
  have hf := hapart f hf
  unfold Fixup.Apart at hf
  unfold Fixup.Covers at hcovers
  omega

/-- The bytes of a number behind its tag, and where they go. -/
theorem exists_code_setNumber (p : Program) (a : Nat) (n : Int64) :
    ∃ bs, bs.length = 8 ∧ Item.bytes (.num n) = Tag.num.toByte :: bs ∧
      (p.setNumber a n).code = p.code.overwrite (a + 1) bs := by
  generalize hbs : Bytes.littleEndian 8 n.toUInt64.toNat = bs
  have hlen : bs.length = 8 := by rw [← hbs, Bytes.length_littleEndian]
  exact ⟨bs, hlen, by rw [Item.bytes, hbs], by rw [setNumber, hbs]⟩

theorem patched_setNumber (p : Program) (f : Fixup) (n : Int64) :
    Patched [f] p (p.setNumber f.address n) := by
  obtain ⟨bs, hlen, _, hcode⟩ := exists_code_setNumber p f.address n
  refine ⟨by rw [hcode, Code.size_overwrite], fun i hi => ?_⟩
  have hi := hi f List.mem_cons_self
  unfold Fixup.Covers at hi
  rw [hcode]
  exact Code.getElem?_overwrite_outside (by omega)

/-- The number is put in behind its tag. -/
theorem holds_setNumber {a : Nat} (h : p.hasNumber a = true) (n : Int64) :
    (p.setNumber a n).code.Holds a (Item.bytes (.num n)) := by
  obtain ⟨bs, hlen, hbytes, hcode⟩ := exists_code_setNumber p a n
  obtain ⟨htag, hsize⟩ := hasNumber_iff.1 h
  rw [hbytes, hcode]
  refine Code.holds_cons_iff.2 ⟨?_, Code.holds_overwrite (by omega)⟩
  refine Code.holds_iff_getElem?.2 fun i hi => ?_
  obtain rfl : i = 0 := by simpa using hi
  exact (Code.getElem?_overwrite_outside (.inl (Nat.lt_add_one a))).trans htag

end Program

/-- A fixup at a number item puts the address of its label there, or changes nothing because
there is none. -/
theorem Fixup.resolve_of_hasNumber {blocks : Blocks} {f : Fixup} {p : Program}
    (h : p.hasNumber f.address = true) :
    f.resolve blocks p =
      match blocks.address? f.label with
      | none => .error (.of (.unresolved f.label f.address)) p
      | some dest =>
        .ok () ((p.setNumber f.address (Int64.ofNat dest)).comment (f.note dest)) := by
  unfold resolve
  cases blocks.address? f.label with
  | none => rfl
  | some dest => simp only [Program.patch_of_hasNumber h]

-- ============================================================================
-- All fixups
-- ============================================================================

/-- What a list of fixups makes of a program when it is resolved. -/
inductive Linked (blocks : Blocks) (fs : List Fixup) (p : Program) :
    EStateM.Result Error Program Unit → Prop where
  | ok {q : Program} (patched : p.Patched fs q)
      (numbers : ∀ f ∈ fs, ∃ dest, blocks.address? f.label = some dest ∧
        q.code.Holds f.address (Item.bytes (.num (Int64.ofNat dest)))) :
      Linked blocks fs p (.ok () q)
  | error {e : Error} {q : Program} (patched : p.Patched fs q) (kind : e.kind = .internalError)
      {f : Fixup} (mem : f ∈ fs) (missing : blocks.address? f.label = none) :
      Linked blocks fs p (.error e q)

/-- Fixups that stand apart at number items are all carried out, up to the first whose label
has no address. -/
theorem resolveFixups_apart (blocks : Blocks) {fs : List Fixup} {p : Program}
    (hnumbers : ∀ f ∈ fs, p.hasNumber f.address = true) (hapart : fs.Pairwise Fixup.Apart) :
    Linked blocks fs p (resolveFixups blocks fs p) := by
  induction fs generalizing p with
  | nil => exact .ok (.refl [] p) fun f hf => nomatch hf
  | cons f fs ih =>
    obtain ⟨hf, hfs⟩ := List.forall_mem_cons.1 hnumbers
    obtain ⟨hfirst, hrest⟩ := List.pairwise_cons.1 hapart
    rw [resolveFixups_cons, Fixup.resolve_of_hasNumber hf]
    cases hdest : blocks.address? f.label with
    | none => exact .error (.refl _ p) rfl List.mem_cons_self hdest
    | some dest =>
      -- the first number is in its place, and the other items are still found
      have hset := Program.patched_setNumber p f (Int64.ofNat dest)
      have hheldFirst := Program.holds_setNumber hf (Int64.ofNat dest)
      dsimp only
      generalize p.setNumber f.address (Int64.ofNat dest) = q at hset hheldFirst
      have hset : p.Patched [f] (q.comment (f.note dest)) := ⟨hset.size, hset.same⟩
      have hstill := ih (p := q.comment (f.note dest)) (fun g hg =>
        hset.hasNumber (hfs g hg) (List.forall_mem_singleton.2 (hfirst g hg))) hrest
      generalize resolveFixups blocks fs _ = result at hstill
      cases hstill with
      | ok hpatched hheld =>
        refine .ok (hset.trans hpatched) (List.forall_mem_cons.2 ⟨⟨dest, hdest, ?_⟩, hheld⟩)
        exact hpatched.holds hheldFirst hfirst
      | error hpatched hkind hmem hmissing =>
        exact .error (hset.trans hpatched) hkind (List.mem_cons_of_mem f hmem) hmissing

namespace Compile

/-- Filling in the jumps changes exactly the jump operands.  All fixups of a compile run are
at number items that stand apart.  If every label has an address, the jumps are filled in and
no fixup is left; each number item reads as the address of its label; the stream is as long
as before, and every byte outside of the numbers is what it was.  If a label has none, that is
an internal error, and still every byte outside of the numbers is what it was. -/
theorem fixups_resolved (c : Compiler)
    (hnumbers : ∀ f ∈ c.fixups.toList, c.program.hasNumber f.address = true)
    (hapart : c.fixups.toList.Pairwise Fixup.Apart) :
    ((∀ f ∈ c.fixups.toList, (c.blocks.address? f.label).isSome) →
      ∃ q : Program, resolve c = .ok () { c with program := q, fixups := #[] } ∧
        (∀ f ∈ c.fixups.toList, ∀ dest, c.blocks.address? f.label = some dest →
          ∃ next, q.code.taggedNumber f.address = .ok (Int64.ofNat dest, next)) ∧
        q.code.size = c.program.code.size ∧
        ∀ i, (∀ f ∈ c.fixups.toList, ¬f.Covers i) → q.code[i]? = c.program.code[i]?) ∧
    ((∃ f ∈ c.fixups.toList, c.blocks.address? f.label = none) →
      ∃ (e : Error) (q : Program), resolve c = .error e { c with program := q, fixups := #[] } ∧
        e.kind = .internalError ∧ q.code.size = c.program.code.size ∧
        ∀ i, (∀ f ∈ c.fixups.toList, ¬f.Covers i) → q.code[i]? = c.program.code[i]?) := by
  have hlinked := resolveFixups_apart c.blocks hnumbers hapart
  unfold resolve
  dsimp only
  generalize resolveFixups c.blocks c.fixups.toList c.program = result at hlinked
  cases hlinked with
  | @ok q hpatched hheld =>
    refine ⟨fun _ => ⟨q, rfl, fun f hf dest hdest => ?_, hpatched.size, hpatched.same⟩, ?_⟩
    · obtain ⟨dest', hdest', hholds⟩ := hheld f hf
      obtain rfl : dest' = dest := Option.some.inj (hdest'.symm.trans hdest)
      obtain ⟨hnext, hread⟩ := Code.taggedNumber_of_holds hholds
      exact ⟨⟨f.address + 9, hnext⟩, hread⟩
    · rintro ⟨f, hf, hmissing⟩
      obtain ⟨dest, hdest, _⟩ := hheld f hf
      rw [hmissing] at hdest
      cases hdest
  | @error e q hpatched hkind f hf hmissing =>
    refine ⟨fun hall => ?_, fun _ => ⟨e, q, rfl, hkind, hpatched.size, hpatched.same⟩⟩
    have hsome := hall f hf
    rw [hmissing] at hsome
    cases hsome

/-- Two jumps, over the second one and back to the start, at the end of a run. -/
def twoJumps : Compiler :=
  { config := {}
    program := { code :=
      #[0x63, 10, 0x6E, 255, 0, 0, 0, 0, 0, 0, 0, 0x63, 10, 0x6E, 0, 0, 0, 0, 0, 0, 0, 0] }
    blocks := (({} : Blocks).record ⟨0, .start⟩ 0).record ⟨0, .finish⟩ 22
    fixups := #[⟨2, ⟨0, .finish⟩⟩, ⟨13, ⟨0, .start⟩⟩] }

/-- The first jump gets its address, and the code of the second one stays. -/
theorem fixups_resolved_twoJumps :
    ∃ q : Program, resolve twoJumps = .ok () { twoJumps with program := q, fixups := #[] } ∧
      (∃ next, q.code.taggedNumber 2 = .ok (22, next)) ∧ q.code[12]? = some 10 := by
  have hfirst : twoJumps.blocks.address? ⟨0, .finish⟩ = some 22 := by simp [twoJumps]
  obtain ⟨q, hq, hread, -, hsame⟩ := (fixups_resolved twoJumps
    (by decide) (by simp [twoJumps, Fixup.Apart])).1 (by simp [twoJumps])
  refine ⟨q, hq, hread ⟨2, ⟨0, .finish⟩⟩ (by simp [twoJumps]) 22 hfirst, ?_⟩
  rw [hsame 12 (by simp [twoJumps, Fixup.Covers])]
  rfl

end Compile

end ScriptMachine
