/-
  ScriptMachine.Stream.Reading

  Reading the items of an instruction stream.  A read starts at a position and,
  when it succeeds, gives a position beyond it that is still inside the stream;
  the type of the result says so, which is why loops over a stream end.  A read
  that fails tells how far it came.
-/

import ScriptMachine.Stream.Program

namespace ScriptMachine

/-- A failed read: the error and the position at which reading stopped. -/
structure Failure where
  error : Error
  position : Nat

namespace Code

/-- The positions that a successful read from `position` can reach. -/
abbrev Past (c : Code) (position : Nat) : Type :=
  { p : Nat // position < p ∧ p ≤ c.size }

/-- A read of an `α` that starts at `position`. -/
abbrev Read (c : Code) (α : Type) (position : Nat) : Type :=
  Except Failure (α × c.Past position)

/-- What lies past a later position lies past the earlier one. -/
def Past.trans {c : Code} {position : Nat} (p : c.Past position) (q : c.Past p.1) :
    c.Past position :=
  ⟨q.1, Nat.lt_trans p.2.1 q.2.1, q.2.2⟩

/-- The stream is read to its end. -/
def atEnd (c : Code) (position : Nat) : Bool :=
  c.size ≤ position

/-- The failure of reading `wanted` bytes where fewer are left. -/
def endOfCode (c : Code) (wanted position : Nat) : Failure :=
  ⟨(Error.of (.endOfCode wanted position c.size)).atAddress position, position⟩

/-- Fails at an address, having read up to a position. -/
def fail {α : Type} (cause : Cause) (address position : Nat) : Except Failure α :=
  .error ⟨(Error.of cause).atAddress address, position⟩

/-! ## Bytes -/

/-- The next byte, not consumed. -/
def peek (code : Code) (position : Nat) : Except Failure UInt8 :=
  match code[position]? with
  | some b => .ok b
  | none => .error (code.endOfCode 1 position)

/-- Where there is a next byte, the stream goes on. -/
theorem lt_size_of_peek {code : Code} {position : Nat} {b : UInt8}
    (h : code.peek position = .ok b) : position < code.size := by
  unfold peek at h
  split at h
  · rename_i hb
    exact (Array.getElem?_eq_some_iff.1 hb).1
  · cases h

/-- The next byte. -/
def byte (code : Code) (position : Nat) : code.Read UInt8 position :=
  match h : code.peek position with
  | .ok b => .ok (b, ⟨position + 1, Nat.lt_succ_self position, lt_size_of_peek h⟩)
  | .error e => .error e

/-- The next `n + 1` bytes. -/
def take (c : Code) (n position : Nat) : c.Read (List UInt8) position :=
  if h : position + (n + 1) ≤ c.size then
    .ok ((c.extract position (position + (n + 1))).toList, ⟨position + (n + 1), by omega, h⟩)
  else .error (c.endOfCode (n + 1) position)

/-- A 16-bit number. -/
def word (c : Code) (position : Nat) : c.Read UInt16 position := do
  let (bs, p) ← c.take 1 position
  return (UInt16.ofNat (Bytes.ofLittleEndian bs), p)

/-- A 64-bit number. -/
def number (c : Code) (position : Nat) : c.Read Int64 position := do
  let (bs, p) ← c.take 7 position
  return ((UInt64.ofNat (Bytes.ofLittleEndian bs)).toInt64, p)

/-- A text: its length, its bytes and a zero byte. -/
def text (c : Code) (position : Nat) : c.Read String position := do
  let (size, p) ← c.word position
  match size.toNat with
  | 0 => fail .emptyText position p
  | n + 1 =>
    let (bs, q) ← c.take n p.1
    if bs.getLast? = some 0 then
      match String.fromUTF8? ⟨bs.dropLast.toArray⟩ with
      | some s => return (s, p.trans q)
      | none => fail .invalidText position q
    else fail .unterminatedText position q

/-! ## Items -/

/-- The tag of an operand. -/
def tag (c : Code) (position : Nat) : c.Read Tag position := do
  let (b, p) ← c.byte position
  match Tag.ofByte? b with
  | some t => return (t, p)
  | none => fail (.unknownTag b) position p

/-- A tag that must be the given one. -/
def expect (c : Code) (t : Tag) (position : Nat) : c.Read Unit position := do
  let (b, p) ← c.byte position
  if b = t.toByte then return ((), p) else fail (.unexpectedTag t b) position p

/-- An instruction code with its tag. -/
def opcode (c : Code) (position : Nat) : c.Read Opcode position := do
  let ((), p) ← c.expect .code position
  let (b, q) ← c.byte p
  match Opcode.ofByte? b with
  | some o => return (o, p.trans q)
  | none => fail (.unknownOpcode b) p q

/-- A tag that must be the given one, and what `read` finds behind it. -/
def tagged {α : Type} (c : Code) (t : Tag) (read : (position : Nat) → c.Read α position)
    (position : Nat) : c.Read α position := do
  let ((), p) ← c.expect t position
  let (a, q) ← read p
  return (a, p.trans q)

/-- A number with its tag. -/
def taggedNumber (c : Code) (position : Nat) : c.Read Int64 position :=
  c.tagged .num c.number position

/-- A variable name with its tag. -/
def taggedName (c : Code) (position : Nat) : c.Read String position :=
  c.tagged .var c.text position

/-- A text with its tag. -/
def taggedText (c : Code) (position : Nat) : c.Read String position :=
  c.tagged .str c.text position

/-- A position to go on from; it must lie inside the stream. -/
def seek (c : Code) (address : Nat) : Except Error Nat :=
  if address < c.size then .ok address else .error (.of (.addressBeyond address c.size))

/-! ## Small facts -/

theorem byte_of_lt {code : Code} {position : Nat} (h : position < code.size) :
    code.byte position = .ok (code[position], ⟨position + 1, Nat.lt_succ_self position, h⟩) := by
  have hpeek : code.peek position = .ok code[position] := by
    rw [peek, Array.getElem?_eq_getElem h]
  unfold byte
  split
  · rename_i b hb
    obtain rfl := Except.ok.inj (hb.symm.trans hpeek)
    rfl
  · rename_i hb
    rw [hpeek] at hb
    cases hb

theorem byte_of_size_le {code : Code} {position : Nat} (h : code.size ≤ position) :
    code.byte position = .error (code.endOfCode 1 position) := by
  have hpeek : code.peek position = .error (code.endOfCode 1 position) := by
    rw [peek, Array.getElem?_eq_none h]
  unfold byte
  split
  · rename_i hb
    rw [hpeek] at hb
    cases hb
  · rename_i e hb
    obtain rfl := Except.error.inj (hb.symm.trans hpeek)
    rfl

end Code

end ScriptMachine
