/-
  ScriptMachine.Scope.Blocks

  The control blocks of a compile run: which are open, innermost first, and the
  address reached at each of their control points.  A label can be asked for
  before its point is reached; `Blocks.address?` then knows nothing of it yet.
-/

import ScriptMachine.Cause
import Std.Data.TreeMap

namespace ScriptMachine

/-- An open block and the number of steps it has; for the range of its number see `Label`. -/
structure OpenBlock where
  number : Nat
  steps : UInt8
  deriving DecidableEq, Repr

/-- The blocks opened so far.  `addresses` is indexed by `Label.key`.  A `limit` of at most
`2 ^ 32` keeps the numbers of the blocks in their 32 bits. -/
structure Blocks where
  limit : Nat := 0xFFFFFF
  allocated : Nat := 0
  opened : List OpenBlock := []
  addresses : Std.TreeMap Nat Nat := ∅

namespace OpenBlock

/-- Label of the block's start. -/
def startLabel (b : OpenBlock) : Label :=
  ⟨b.number, .start⟩

/-- Label of the block's end. -/
def endLabel (b : OpenBlock) : Label :=
  ⟨b.number, .finish⟩

/-- Label of the point reached last. -/
def currentLabel (b : OpenBlock) : Label :=
  ⟨b.number, if b.steps = 0 then .start else .step b.steps⟩

/-- Label of the next step; a block has at most 255 of them. -/
def nextLabel (b : OpenBlock) : Except Error Label :=
  if b.steps = 255 then .error (.of (.tooManySteps b.number))
  else .ok ⟨b.number, .step (b.steps + 1)⟩

end OpenBlock

namespace Blocks

/-- Number of open blocks. -/
def depth (b : Blocks) : Nat :=
  b.opened.length

/-- No block is open. -/
def isComplete (b : Blocks) : Bool :=
  b.opened.isEmpty

/-- The innermost open block. -/
def innermost (b : Blocks) : Except Error OpenBlock :=
  match b.opened with
  | o :: _ => .ok o
  | [] => .error (.of .noOpenBlock)

/-- Address recorded for a label. -/
def address? (b : Blocks) (l : Label) : Option Nat :=
  b.addresses[l.key]?

/-- Records the address of a label. -/
def record (b : Blocks) (l : Label) (address : Nat) : Blocks :=
  { b with addresses := b.addresses.insert l.key address }

/-- Opens a block at an address. -/
def start (b : Blocks) (address : Nat) : Except Error (Label × Blocks) :=
  if b.limit ≤ b.allocated then .error (.of (.tooManyBlocks b.limit))
  else
    let o : OpenBlock := ⟨b.allocated, 0⟩
    let b := { b with allocated := b.allocated + 1, opened := o :: b.opened }
    .ok (o.startLabel, b.record o.startLabel address)

/-- Takes the next step of the innermost block at an address. -/
def link (b : Blocks) (address : Nat) : Except Error (Label × Blocks) := do
  let o ← b.innermost
  let l ← o.nextLabel
  let b := { b with opened := { o with steps := o.steps + 1 } :: b.opened.tail }
  return (l, b.record l address)

/-- Closes the innermost block at an address. -/
def close (b : Blocks) (address : Nat) : Except Error (Label × Blocks) := do
  let o ← b.innermost
  let b := { b with opened := b.opened.tail }
  return (o.endLabel, b.record o.endLabel address)

/-- Label of the start of the innermost block. -/
def startLabel (b : Blocks) : Except Error Label :=
  return (← b.innermost).startLabel

/-- Label of the point that the innermost block reached last. -/
def currentLabel (b : Blocks) : Except Error Label :=
  return (← b.innermost).currentLabel

/-- The label that the next `link` records. -/
def nextLabel (b : Blocks) : Except Error Label := do
  (← b.innermost).nextLabel

/-- Label of the end of the innermost block. -/
def endLabel (b : Blocks) : Except Error Label :=
  return (← b.innermost).endLabel

/-- Where the blocks stand, in words. -/
def info (b : Blocks) : String :=
  match b.opened with
  | o :: _ =>
    "index " ++ toString o.number ++ "-" ++ toString o.steps.toNat ++ " depth " ++ toString b.depth
  | [] => "no open block, " ++ toString b.allocated ++ " allocated"

/-! ## Small facts -/

@[simp] theorem address?_record (b : Blocks) (l m : Label) (address : Nat) :
    (b.record l address).address? m = if l = m then some address else b.address? m := by
  by_cases h : l = m
  · simp [address?, record, h]
  · have hk : l.key ≠ m.key := fun hk => h (Label.key_injective hk)
    simp [address?, record, h, hk, Std.TreeMap.getElem?_insert]

theorem address?_of_record {b : Blocks} {l m : Label} {address x : Nat}
    (h : (b.record l address).address? m = some x) : b.address? m = some x ∨ x = address := by
  rw [address?_record] at h
  split at h
  · exact .inr (Option.some.inj h).symm
  · exact .inl h

end Blocks

end ScriptMachine
