/-
  ScriptMachine.Stream.Program

  A program under construction: the bytes of its instruction stream and the
  listing written alongside.  Items are appended; afterwards only numbers are
  replaced by other numbers.
-/

import ScriptMachine.Bytes.Checksum
import ScriptMachine.Stream.Item
import ScriptMachine.Stream.Listing

namespace ScriptMachine

/-- The bytes of an instruction stream. -/
abbrev Code := Array UInt8

/-- An instruction stream with its listing. -/
structure Program where
  code : Code := #[]
  listing : Listing := {}

/-- Replaces bytes from a position on, as far as the array reaches. -/
def Code.overwrite (c : Code) (position : Nat) : List UInt8 → Code
  | [] => c
  | b :: bs => Code.overwrite (c.setIfInBounds position b) (position + 1) bs

@[simp] theorem Code.size_overwrite (c : Code) (position : Nat) (bs : List UInt8) :
    (c.overwrite position bs).size = c.size := by
  induction bs generalizing c position with
  | nil => rfl
  | cons b bs ih => simp [Code.overwrite, ih]

namespace Program

/-- The address of the next item. -/
def position (p : Program) : Nat :=
  p.code.size

/-- Appends an item to the stream and to the listing.  Of a text that does not
fit, the stream gets the tag alone. -/
def write (p : Program) (i : Item) : Program :=
  let listing := p.listing.put (i.listed p.code.size)
  { code := p.code ++ i.bytes, listing }

/-- Appends items in order. -/
def writeAll (p : Program) (items : List Item) : Program :=
  items.foldl write p

/-- Appends a comment to the listing. -/
def comment (p : Program) (s : String) : Program :=
  { p with listing := p.listing.comment s }

/-- A number item starts at the address. -/
def hasNumber (p : Program) (address : Nat) : Bool :=
  p.code[address]? == some Tag.num.toByte && address + 9 ≤ p.code.size

/-- Replaces the eight bytes behind the tag at an address by a number. -/
def setNumber (p : Program) (address : Nat) (n : Int64) : Program :=
  { p with code := p.code.overwrite (address + 1) (Bytes.littleEndian 8 n.toUInt64.toNat) }

/-- Replaces the number of the item at an address. -/
def patch (p : Program) (address : Nat) (n : Int64) : Except Error Program :=
  if p.hasNumber address then .ok (p.setNumber address n)
  else .error (.of (.noNumberAt address))

/-! ## Small facts -/

theorem patch_of_hasNumber {p : Program} {address : Nat} (h : p.hasNumber address = true)
    (n : Int64) : p.patch address n = .ok (p.setNumber address n) :=
  if_pos h

theorem patch_eq_error {p : Program} {address : Nat} {n : Int64} {e : Error}
    (h : p.patch address n = .error e) : e = .of (.noNumberAt address) := by
  unfold patch at h
  split at h <;> cases h
  rfl

end Program

/-- Length and check value of an instruction stream, as listings note them. -/
def Code.summary (c : Code) : String :=
  toString c.size ++ " bytes crc32 " ++ Text.hexPadded '0' 8 (Bytes.crc32 c).toNat

end ScriptMachine
