/-
  ScriptMachine.Numeral.Reading

  Reading a floating-point number from decimal text.  The grammar is an optional
  sign, then one of the words `inf`, `infinity` and `nan` in any case, or digits
  with at most one point and an optional exponent; at least one digit stands
  before or after the point.  The result is the nearest number of the format.

  The digits of a number count without limit.  An exponent grows digit by digit
  until it reaches `exponentLimit`; the digits behind that are read and ignored,
  so `1e655360` is the number `1e65536`.
-/

import ScriptMachine.Numeral.Binary
import ScriptMachine.Text.Digits

namespace ScriptMachine.Numeral

/-- Number written by `digits` with the decimal point moved by `exponent`. -/
structure Digits where
  digits : List Char
  exponent : Int

/-- An exponent that has come so far takes no further digits. -/
def exponentLimit : Nat := 65536

/-- The exponent with one more digit, while it is below the limit. -/
def extendExponent (e : Nat) (digit : Char) : Nat :=
  if e < exponentLimit then 10 * e + (digit.toNat - '0'.toNat) else e

/-- Exponent of a non-empty run of decimal digits. -/
def exponent? (cs : List Char) : Option Nat :=
  if Text.isDigits cs then some (cs.foldl extendExponent 0) else none

/-- Digits, an optional point with digits, an optional exponent. -/
def Digits.read? (cs : List Char) : Option Digits :=
  let whole := cs.takeWhile Char.isDigit
  let rest := cs.dropWhile Char.isDigit
  let (fraction, rest) :=
    match rest with
    | '.' :: rest => (rest.takeWhile Char.isDigit, rest.dropWhile Char.isDigit)
    | _ => ([], rest)
  let digits := whole ++ fraction
  if digits.isEmpty then none
  else
    match rest with
    | [] => some ⟨digits, -fraction.length⟩
    | c :: rest =>
      if c = 'e' ∨ c = 'E' then
        (Text.readSigned? exponent? rest).map fun e => ⟨digits, e - fraction.length⟩
      else none

/-- The same number without zeros at either end of its digits. -/
def Digits.trim (d : Digits) : Digits :=
  let backwards := (d.digits.dropWhile (· == '0')).reverse
  let kept := backwards.dropWhile (· == '0')
  ⟨kept.reverse, d.exponent + (backwards.length - kept.length : Nat)⟩

/-- Bits of the number nearest to written digits.  A number whose first digit is
too far from the point is infinite or zero without further arithmetic. -/
def BinaryFormat.nearest (f : BinaryFormat) (negative : Bool) (d : Digits) : Nat :=
  let ⟨digits, exponent⟩ := d.trim
  let place := digits.length + exponent
  if digits.isEmpty ∨ place < -400 then f.signed negative 0
  else if 400 < place then f.signed negative f.infinityBits
  else
    let n := Nat.ofDigitChars 10 digits 0
    f.round negative ⟨n * Nat.pow 10 exponent.toNat, Nat.pow 10 (-exponent).toNat⟩

/-- Reads a number without its sign. -/
def BinaryFormat.readUnsigned? (f : BinaryFormat) (negative : Bool) (cs : List Char) :
    Option Nat :=
  let word := cs.map Char.toLower
  if word = ['n', 'a', 'n'] then some f.nanBits
  else if word = ['i', 'n', 'f'] ∨ word = ['i', 'n', 'f', 'i', 'n', 'i', 't', 'y'] then
    some (f.signed negative f.infinityBits)
  else (Digits.read? cs).map (f.nearest negative)

/-- Reads a number; `none` when the text is not one. -/
def BinaryFormat.read? (f : BinaryFormat) : List Char → Option Nat
  | '-' :: cs => f.readUnsigned? true cs
  | '+' :: cs => f.readUnsigned? false cs
  | cs => f.readUnsigned? false cs

/-! ## Small facts -/

/-- An exponent stays below ten times its limit. -/
theorem extendExponent_lt {e : Nat} {digit : Char} (hd : digit.isDigit)
    (he : e < 10 * exponentLimit) : extendExponent e digit < 10 * exponentLimit := by
  have h9 : digit.toNat - '0'.toNat ≤ 9 := by
    simp only [Char.isDigit, Bool.and_eq_true, decide_eq_true_eq] at hd
    have : digit.toNat ≤ 57 := hd.2
    show digit.toNat - 48 ≤ 9
    omega
  by_cases h : e < exponentLimit
  · simp only [extendExponent, h, if_true]
    simp only [exponentLimit] at *
    omega
  · simpa only [extendExponent, h, if_false] using he

/-- Behind the limit digits change nothing. -/
theorem extendExponent_of_le {e : Nat} (h : exponentLimit ≤ e) (digit : Char) :
    extendExponent e digit = e := by
  simp [extendExponent, Nat.not_lt.2 h]

end ScriptMachine.Numeral
