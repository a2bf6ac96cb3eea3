/-
  ScriptMachine.Stream.Disassembly

  The readable form of a finished instruction stream, one instruction per line
  behind its address, under a line with its length and check value.
-/

import ScriptMachine.Stream.Instruction

namespace ScriptMachine

mutual

/-- Text of an operand. -/
def Operand.shown : Operand → String
  | .str s => " \"" ++ s ++ "\""
  | .num n => " " ++ Text.decimal n.toInt
  | .var name => " " ++ name
  | .call code args => " " ++ toString code.toNat ++ "(" ++ args.shown "" ++ " )"

/-- Text of arguments; `comma` stands in front of the first. -/
def Args.shown (comma : String) : Args → String
  | .nil => ""
  | .cons p e rest => comma ++ p.letter.toString ++ ":" ++ e.shown ++ rest.shown ","

/-- Text of an expression. -/
def Expression.shown : Expression → String
  | .last o => o.shown
  | .more o op rest => o.shown ++ " " ++ op.symbol ++ rest.shown

end

/-- Text of a jump address; a negative one is shown by its 64 bits. -/
def shownAddress (n : Int64) : String :=
  Text.hexMarked n.toUInt64.toNat

/-- Text of what follows the name of an instruction. -/
def Instruction.operandsShown : Instruction → String
  | stop => ""
  | assign _ name e => " " ++ name ++ "," ++ e.shown
  | increment name | decrement name | push name | pop name => " " ++ name
  | unlessGoto e dest | unlessCaseGoto e dest => e.shown ++ " else " ++ shownAddress dest
  | goto dest => " " ++ shownAddress dest
  | func code args => (Operand.call code args).shown

/-- Text of an instruction at an address. -/
def Instruction.shown (address : Nat) (i : Instruction) : String :=
  "\n" ++ Text.hexPadded ' ' 6 address ++ ": " ++ i.opcode.name ++ i.operandsShown

/-- Disassembly of a stream. -/
def Code.disassembly (c : Code) : Except Error String :=
  match c.instructions with
  | .ok is => .ok (is.foldl (fun s (address, i) => s ++ i.shown address) ("// " ++ c.summary))
  | .error f => .error f.error

end ScriptMachine
