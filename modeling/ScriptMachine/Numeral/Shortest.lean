/-
  ScriptMachine.Numeral.Shortest

  The text of a floating-point number: the fewest decimal digits that read back
  as the same number, and of those the nearest to it, a tie going to the larger.
  The digits are always written positionally, without an exponent.
-/

import ScriptMachine.Numeral.Binary

namespace ScriptMachine.Numeral

/-- The decimal number `digits * 10 ^ exponent`. -/
structure Decimal where
  digits : Nat
  exponent : Int
  deriving DecidableEq, Repr

/-- The numbers that round to one given finite number lie between `low` and
`high`, all three over the common denominator `den`; `closed` tells whether the
ends belong to it. -/
structure Interval where
  low : Nat
  value : Nat
  high : Nat
  den : Nat
  closed : Bool

/-- The rounding interval of `mantissa * 2 ^ exponent`.  It reaches half a unit
to both sides, except below a power of two, where the units are half as wide. -/
def BinaryFormat.interval (f : BinaryFormat) (mantissa : Nat) (exponent : Int) : Interval :=
  let below := if mantissa = f.hidden ∧ f.minExponent < exponent then 1 else 2
  let r := Ratio.scaled 1 (exponent - 2)
  { low := (4 * mantissa - below) * r.num
    value := 4 * mantissa * r.num
    high := (4 * mantissa + 2) * r.num
    den := r.den
    closed := mantissa % 2 = 0 }

namespace Interval

/-- The point `n * (num / den)` of a grid is not below the interval. -/
def above (i : Interval) (num den n : Nat) : Bool :=
  if i.closed then i.low * den ≤ n * num * i.den else i.low * den < n * num * i.den

/-- The point `n * (num / den)` of a grid is not beyond the interval. -/
def below (i : Interval) (num den n : Nat) : Bool :=
  if i.closed then n * num * i.den ≤ i.high * den else n * num * i.den < i.high * den

/-- The power of ten just above the value: `10 ^ (k - 1) ≤ value < 10 ^ k`. -/
def magnitude (i : Interval) : Int :=
  let whole := i.value / i.den
  if whole = 0 then
    let zeros := (List.range 400).find? fun k => i.den ≤ i.value * Nat.pow 10 (k + 1)
    Int.neg (zeros.getD 400 : Nat)
  else ((Nat.toDigits 10 whole).length : Nat)

/-- The point nearest to the value among its two neighbours on the grid of the
multiples of `10 ^ exponent`, if one of them lies in the interval. -/
def onGrid? (i : Interval) (exponent : Int) : Option Decimal :=
  let num := Nat.pow 10 exponent.toNat
  let den := Nat.pow 10 (-exponent).toNat
  let n := i.value * den / (num * i.den)
  let rest := i.value * den - n * num * i.den
  let unit := num * i.den
  match i.above num den n, i.below num den (n + 1) with
  | true, true => some ⟨if 2 * rest < unit then n else n + 1, exponent⟩
  | true, false => some ⟨n, exponent⟩
  | false, true => some ⟨n + 1, exponent⟩
  | false, false => none

/-- The shortest decimal of the interval, trying one digit more at a time. -/
def shortest (i : Interval) : Decimal :=
  let top := i.magnitude
  ((List.range 17).findSome? fun (n : Nat) => i.onGrid? (top - (n + 1 : Nat))).getD
    ⟨i.value / i.den, 0⟩

end Interval

/-- Positional text of a decimal. -/
def Decimal.positional (d : Decimal) : List Char :=
  let ds := Nat.toDigits 10 d.digits
  match d.exponent with
  | .ofNat e => ds ++ List.replicate e '0'
  | .negSucc e =>
    let places := e + 1
    let padded := ds.leftpad (places + 1) '0'
    let whole := padded.take (padded.length - places)
    let fraction := padded.drop (padded.length - places)
    -- a trailing zero would not be needed to read the number back
    let fraction := (fraction.reverse.dropWhile (· == '0')).reverse
    if fraction.isEmpty then whole else whole ++ '.' :: fraction

/-- Text of a bit pattern. -/
def BinaryFormat.text (f : BinaryFormat) (bits : Nat) : String :=
  match f.decode bits with
  | .nan => "NaN"
  | .infinite negative => if negative then "-inf" else "inf"
  | .finite negative mantissa exponent =>
    let ds := if mantissa = 0 then ['0'] else (f.interval mantissa exponent).shortest.positional
    String.ofList (if negative then '-' :: ds else ds)

end ScriptMachine.Numeral
