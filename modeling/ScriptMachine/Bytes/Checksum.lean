/-
  ScriptMachine.Bytes.Checksum

  The 32-bit cyclic redundancy check with the reflected polynomial `EDB88320`,
  all ones before and after.
-/

namespace ScriptMachine.Bytes

/-- One bit of polynomial division. -/
def crcBit (c : UInt32) : UInt32 :=
  if c &&& 1 = 1 then (c >>> 1) ^^^ 0xEDB88320 else c >>> 1

/-- Division by the polynomial over the eight bits of one byte. -/
def crcByte (c : UInt32) (b : UInt8) : UInt32 :=
  let c := c ^^^ b.toUInt32
  crcBit (crcBit (crcBit (crcBit (crcBit (crcBit (crcBit (crcBit c)))))))

/-- Check value of a byte array. -/
def crc32 (bs : Array UInt8) : UInt32 :=
  bs.foldl crcByte 0xFFFFFFFF ^^^ 0xFFFFFFFF

end ScriptMachine.Bytes
