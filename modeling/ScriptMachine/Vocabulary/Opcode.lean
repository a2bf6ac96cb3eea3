/-
  ScriptMachine.Vocabulary.Opcode

  The instruction set and the tags of the instruction stream.  The machine has
  no registers: instructions name their variables and carry whole expressions,
  and every item of the stream is announced by a one-byte tag.
-/

namespace ScriptMachine

/-- The instructions of the machine.  `stop` is the only one that leaves the
fetch loop without an error; `cmp` and `case` carry an expression and the address
to go to when it is false or does not match. -/
inductive Opcode where
  | stop | mov | add | sub | mul | div | mod | inc | dec
  | cmp | goto | func | case | push | pop
  deriving DecidableEq, Repr

namespace Opcode

/-- All instructions, in the order of their bytes. -/
def all : List Opcode :=
  [stop, mov, add, sub, mul, div, mod, inc, dec, cmp, goto, func, case, push, pop]

/-- Byte of an instruction. -/
def toByte : Opcode → UInt8
  | stop => 0
  | mov => 1
  | add => 2
  | sub => 3
  | mul => 4
  | div => 5
  | mod => 6
  | inc => 7
  | dec => 8
  | cmp => 9
  | goto => 10
  | func => 11
  | case => 12
  | push => 13
  | pop => 14

/-- Instruction of a byte. -/
def ofByte? (b : UInt8) : Option Opcode :=
  all.find? (·.toByte == b)

/-- Name of an instruction in listings. -/
def name : Opcode → String
  | stop => "end"
  | mov => "mov"
  | add => "add"
  | sub => "sub"
  | mul => "mul"
  | div => "div"
  | mod => "mod"
  | inc => "inc"
  | dec => "dec"
  | cmp => "cmp"
  | goto => "goto"
  | func => "func"
  | case => "case"
  | push => "push"
  | pop => "pop"

theorem ofByte?_eq_some_iff {b : UInt8} {o : Opcode} : ofByte? b = some o ↔ b = o.toByte := by
  constructor
  · intro h
    have hb := List.find?_some h
    exact (beq_iff_eq.1 hb).symm
  · rintro rfl
    cases o <;> rfl

@[simp] theorem ofByte?_toByte (o : Opcode) : ofByte? o.toByte = some o :=
  ofByte?_eq_some_iff.2 rfl

end Opcode

/-- The tag in front of an item: an instruction, a variable name, a number, a
text, or a call used as an operand. -/
inductive Tag where
  | code | var | num | str | call
  deriving DecidableEq, Repr

namespace Tag

/-- All tags. -/
def all : List Tag := [code, var, num, str, call]

/-- Letter of a tag. -/
def letter : Tag → Char
  | code => 'c'
  | var => 'v'
  | num => 'n'
  | str => 's'
  | call => 'f'

/-- Byte of a tag: its letter in ASCII. -/
def toByte : Tag → UInt8
  | code => 0x63
  | var => 0x76
  | num => 0x6E
  | str => 0x73
  | call => 0x66

/-- Tag of a byte. -/
def ofByte? (b : UInt8) : Option Tag :=
  all.find? (·.toByte == b)

theorem toByte_eq_letter (t : Tag) : t.toByte.toNat = t.letter.toNat := by
  cases t <;> rfl

theorem ofByte?_eq_some_iff {b : UInt8} {t : Tag} : ofByte? b = some t ↔ b = t.toByte := by
  constructor
  · intro h
    have hb := List.find?_some h
    exact (beq_iff_eq.1 hb).symm
  · rintro rfl
    cases t <;> rfl

@[simp] theorem ofByte?_toByte (t : Tag) : ofByte? t.toByte = some t :=
  ofByte?_eq_some_iff.2 rfl

end Tag

end ScriptMachine
