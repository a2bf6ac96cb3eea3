/-
  ScriptMachine.Numeral.Binary

  Binary floating-point formats, described by their precision and the width of
  their exponent.  `decode` gives the exact meaning of a bit pattern and `round`
  the bit pattern nearest to a quotient of natural numbers, a tie going to the
  even neighbour.  Everything is exact arithmetic on `Nat` and `Int`.
-/

namespace ScriptMachine.Numeral

/-- A binary interchange format: `precision` counts the bits of the significand
with the leading one, `exponentBits` the bits of the exponent field. -/
structure BinaryFormat where
  precision : Nat
  exponentBits : Nat
  deriving DecidableEq, Repr

/-- The 32-bit format. -/
def binary32 : BinaryFormat := ⟨24, 8⟩

/-- The 64-bit format. -/
def binary64 : BinaryFormat := ⟨53, 11⟩

/-- The exact meaning of a bit pattern: a finite one stands for
`mantissa * 2 ^ exponent`, negated when `negative`. -/
inductive Meaning where
  | nan
  | infinite (negative : Bool)
  | finite (negative : Bool) (mantissa : Nat) (exponent : Int)
  deriving DecidableEq, Repr

/-- A non-negative rational number `num / den`. -/
structure Ratio where
  num : Nat
  den : Nat
  deriving DecidableEq, Repr

/-- The ratio `mantissa * 2 ^ exponent`. -/
def Ratio.scaled (mantissa : Nat) (exponent : Int) : Ratio :=
  match exponent with
  | .ofNat e => ⟨mantissa * Nat.pow 2 e, 1⟩
  | .negSucc e => ⟨mantissa, Nat.pow 2 (e + 1)⟩

/-- The quotient rounded to the nearest natural number, a tie to the even one. -/
def roundDiv (num den : Nat) : Nat :=
  let q := num / den
  let r := 2 * (num % den)
  if r < den then q
  else if den < r then q + 1
  else q + q % 2

/-- The largest `k` with `2 ^ k ≤ num / den`, for a positive ratio. -/
def Ratio.log2 (r : Ratio) : Int :=
  let k : Int := (Nat.log2 r.num : Int) - (Nat.log2 r.den : Int)
  let fits :=
    if 0 ≤ k then r.den * Nat.pow 2 k.toNat ≤ r.num else r.den ≤ r.num * Nat.pow 2 (-k).toNat
  if fits then k else k - 1

namespace BinaryFormat

/-- Exponent of the least positive number of the format. -/
def minExponent (f : BinaryFormat) : Int :=
  3 - (Nat.pow 2 (f.exponentBits - 1) : Int) - (f.precision : Int)

/-- The leading one of a significand; also what one step of the exponent field
weighs in a bit pattern. -/
def hidden (f : BinaryFormat) : Nat :=
  Nat.pow 2 (f.precision - 1)

/-- The bits of positive infinity. -/
def infinityBits (f : BinaryFormat) : Nat :=
  (Nat.pow 2 f.exponentBits - 1) * f.hidden

/-- The sign bit. -/
def signBit (f : BinaryFormat) : Nat :=
  Nat.pow 2 f.exponentBits * f.hidden

/-- A bit pattern that is no number. -/
def nanBits (f : BinaryFormat) : Nat :=
  f.infinityBits + f.hidden / 2

/-- Puts the sign bit in front of a magnitude. -/
def signed (f : BinaryFormat) (negative : Bool) (magnitude : Nat) : Nat :=
  if negative then f.signBit + magnitude else magnitude

/-- Meaning of a bit pattern. -/
def decode (f : BinaryFormat) (bits : Nat) : Meaning :=
  let negative := f.signBit ≤ bits
  let exponent := bits / f.hidden % Nat.pow 2 f.exponentBits
  let fraction := bits % f.hidden
  if exponent = Nat.pow 2 f.exponentBits - 1 then
    if fraction = 0 then .infinite negative else .nan
  else if exponent = 0 then .finite negative fraction f.minExponent
  else .finite negative (f.hidden + fraction) (f.minExponent + (exponent - 1 : Nat))

/-- Bits of the number nearest to a ratio.  The unit in the last place is never
below the least positive number; a carry out of the mantissa moves into the
exponent field, and what overflows it is infinite. -/
def round (f : BinaryFormat) (negative : Bool) (r : Ratio) : Nat :=
  if r.num = 0 then f.signed negative 0
  else
    let unit := max f.minExponent (r.log2 - (f.precision - 1 : Nat))
    let mantissa :=
      if 0 ≤ unit then roundDiv r.num (r.den * Nat.pow 2 unit.toNat)
      else roundDiv (r.num * Nat.pow 2 (-unit).toNat) r.den
    let magnitude := (unit - f.minExponent).toNat * f.hidden + mantissa
    f.signed negative (min magnitude f.infinityBits)

/-- Bits of the number nearest to an integer. -/
def ofInt (f : BinaryFormat) (n : Int) : Nat :=
  f.round (n < 0) ⟨n.natAbs, 1⟩

/-- Bits of the number nearest to a meaning in another format. -/
def ofMeaning (f : BinaryFormat) : Meaning → Nat
  | .nan => f.nanBits
  | .infinite negative => f.signed negative f.infinityBits
  | .finite negative mantissa exponent => f.round negative (.scaled mantissa exponent)

end BinaryFormat

/-- The integer part of a meaning, held inside the 64-bit range; no number gives
zero. -/
def Meaning.toInt64 : Meaning → Int64
  | .nan => 0
  | .infinite negative => if negative then Int64.minValue else Int64.maxValue
  | .finite negative mantissa exponent =>
    let r := Ratio.scaled mantissa exponent
    let whole := r.num / r.den
    if negative then Int64.ofInt (max Int64.minValue.toInt (-(whole : Int)))
    else Int64.ofInt (min Int64.maxValue.toInt whole)

end ScriptMachine.Numeral
