/-
  ScriptMachine.Stream.Item

  The items of the instruction stream.  An item is the smallest thing that is
  written: an instruction code, a variable name, a text, a number, an operator,
  and the marks and codes of calls.  Numbers are little endian; names and texts
  carry a 16-bit length that counts their terminating zero byte.
-/

import ScriptMachine.Bytes.LittleEndian
import ScriptMachine.Cause
import ScriptMachine.Vocabulary.Operator

namespace ScriptMachine

/-- One item of the instruction stream.  `call` marks the `func` instruction that
follows as an operand; `func` is the code of the called function; `param`
announces one argument and `paramsEnd` ends them. -/
inductive Item where
  | code (opcode : Opcode)
  | var (name : String)
  | str (text : String)
  | num (n : Int64)
  | call
  | operator (op : Operator)
  | func (code : UInt16)
  | param (p : Param)
  | paramsEnd
  deriving DecidableEq

namespace Item

/-- A text that fits the stream: its length with the zero byte fits 16 bits. -/
def textFits (s : String) : Bool :=
  s.utf8ByteSize + 1 ≤ 65535

/-- Bytes of a text behind its tag.  Of a text that does not fit nothing can be
written. -/
def textBytes (s : String) : List UInt8 :=
  if textFits s then
    Bytes.littleEndian 2 (s.utf8ByteSize + 1) ++ s.toUTF8.data.toList ++ [0]
  else []

/-- Bytes of an item. -/
def bytes : Item → List UInt8
  | code o => [Tag.code.toByte, o.toByte]
  | var name => Tag.var.toByte :: textBytes name
  | str s => Tag.str.toByte :: textBytes s
  | num n => Tag.num.toByte :: Bytes.littleEndian 8 n.toUInt64.toNat
  | call => [Tag.call.toByte]
  | operator o => [o.toByte]
  | func c => Bytes.littleEndian 2 c.toNat
  | param p => [p.toByte]
  | paramsEnd => [ScriptMachine.paramsEnd]

/-- Listing of an item that is written at `address`. -/
def listed (address : Nat) : Item → String
  | code o => "\n" ++ Text.hexPadded ' ' 6 address ++ ": " ++ o.name
  | var name => " " ++ name
  | str s => " \"" ++ s ++ "\""
  | num n => " " ++ Text.decimal n.toInt
  | call => " call"
  | operator .close => ""
  | operator o => " " ++ o.symbol
  | func c => " " ++ toString c.toNat
  | param p => " " ++ p.letter.toString ++ ":"
  | paramsEnd => ""

/-- The error of an item that can not be written whole. -/
def check : Item → Except Error Unit
  | var s | str s => if textFits s then .ok () else .error (.of (.stringTooLong s.utf8ByteSize))
  | _ => .ok ()

end Item

end ScriptMachine
