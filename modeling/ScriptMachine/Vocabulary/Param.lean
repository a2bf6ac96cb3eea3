/-
  ScriptMachine.Vocabulary.Param

  Parameter types of declared functions.  A shape such as `sn?` lists the types
  in order; those that describe a passed argument are also written into the
  instruction stream.
-/

namespace ScriptMachine

/-- One letter of a parameter shape.

* `str`, `num`, `float`: required, passed as a text, an integer, a single float;
* `value`: passed as evaluated, never declared in a script;
* `optional`: may repeat, and ends the list where it is absent;
* `skip`: one bare word of the script that is not passed;
* `stop`: the rest of the line is ignored. -/
inductive Param where
  | str | num | float | value | optional | skip | stop
  deriving DecidableEq, Repr

namespace Param

/-- Letter of a parameter type. -/
def letter : Param → Char
  | str => 's'
  | num => 'n'
  | float => 'f'
  | value => 'v'
  | optional => '?'
  | skip => 't'
  | stop => '.'

/-- Parameter type of a letter in a declared shape. -/
def ofLetter? : Char → Option Param
  | 's' => some str
  | 'n' => some num
  | 'f' => some float
  | '?' => some optional
  | 't' => some skip
  | '.' => some stop
  | _ => none

/-- The parameter type describes an argument of the instruction stream. -/
def isEmitted : Param → Bool
  | skip | stop => false
  | _ => true

/-- The emitted parameter types. -/
def emitted : List Param := [str, num, float, value, optional]

/-- Byte of a parameter type: its letter in ASCII. -/
def toByte : Param → UInt8
  | str => 0x73
  | num => 0x6E
  | float => 0x66
  | value => 0x76
  | optional => 0x3F
  | skip => 0x74
  | stop => 0x2E

/-- Emitted parameter type of a byte. -/
def ofByte? (b : UInt8) : Option Param :=
  emitted.find? (·.toByte == b)

theorem toByte_eq_letter (p : Param) : p.toByte.toNat = p.letter.toNat := by
  cases p <;> rfl

theorem ofByte?_eq_some_iff {b : UInt8} {p : Param} :
    ofByte? b = some p ↔ b = p.toByte ∧ p.isEmitted = true := by
  constructor
  · intro h
    have hb := List.find?_some h
    have hp := List.mem_of_find?_eq_some h
    refine ⟨(beq_iff_eq.1 hb).symm, ?_⟩
    revert hp
    cases p <;> decide
  · rintro ⟨rfl, h⟩
    revert h
    cases p <;> decide

end Param

/-- The byte that ends the arguments of a call. -/
def paramsEnd : UInt8 := 0x3B

theorem ofByte?_paramsEnd : Param.ofByte? paramsEnd = none := rfl

end ScriptMachine
