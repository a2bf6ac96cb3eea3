/-
  ScriptMachine.Scope.Label

  Control points of control blocks.  A block is numbered by its place in the
  order of opening; inside it there are a start, up to 255 numbered steps and an
  end.  Jumps are written against labels and get their addresses later.
-/

namespace ScriptMachine

/-- A control point inside a block. -/
inductive Point where
  | start
  | step (n : UInt8)
  | finish
  deriving DecidableEq, Repr

/-- A control point of one block.  Blocks are numbered from 0 in the order of opening; the
numbers are meant to have 32 bits, so a run that may open more than `2 ^ 32` blocks
is out of range. -/
structure Label where
  block : Nat
  point : Point
  deriving DecidableEq, Repr

namespace Point

/-- Place of a point in its block: the start, then the steps, then the end. -/
def rank : Point → Nat
  | start => 0
  | step n => n.toNat + 1
  | finish => 257

theorem rank_lt (p : Point) : p.rank < 258 := by
  cases p with
  | start => decide
  | step n => have := n.toNat_lt; simp only [rank]; omega
  | finish => decide

theorem rank_injective {p q : Point} (h : p.rank = q.rank) : p = q := by
  cases p with
  | start => cases q <;> simp_all [rank]
  | step n =>
    have hn := n.toNat_lt
    cases q with
    | start => simp [rank] at h
    | step m => simp only [rank, Nat.add_right_cancel_iff] at h; rw [UInt8.toNat_inj.1 h]
    | finish => simp only [rank] at h; omega
  | finish =>
    cases q with
    | start => simp [rank] at h
    | step m => have hm := m.toNat_lt; simp only [rank] at h; omega
    | finish => rfl

end Point

namespace Label

/-- Sorting key: by block, then by place in the block. -/
def key (l : Label) : Nat :=
  l.block * 258 + l.point.rank

/-- The placeholder written for a label before its address is known, in 32 bits: the block
number above one byte for the step, with 0 for the start and 255 for the end.  From block
`2 ^ 24` on the upper bits are lost. -/
def packed (l : Label) : Nat :=
  let step :=
    match l.point with
    | .start => 0
    | .step n => n.toNat
    | .finish => 255
  (l.block * 256 + step) % 0x100000000

/-- Text of a label. -/
def text (l : Label) : String :=
  let block := toString l.block
  match l.point with
  | .start => "B" ++ block ++ ".start"
  | .step n => "B" ++ block ++ "." ++ toString n.toNat
  | .finish => "B" ++ block ++ ".end"

theorem key_injective {l m : Label} (h : l.key = m.key) : l = m := by
  have hl := l.point.rank_lt
  have hm := m.point.rank_lt
  simp only [key] at h
  have hb : l.block = m.block := by omega
  have hp : l.point = m.point := Point.rank_injective (by omega)
  cases l
  cases m
  simp_all

end Label

end ScriptMachine
