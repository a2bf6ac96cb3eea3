/-
  ScriptMachine.Value.Basic

  Script values and their coercions.  A value is of one of four kinds; a coercion
  to a text always succeeds, one to a number fails on a text that is no number.
-/

import ScriptMachine.Cause
import ScriptMachine.Numeral.Reading
import ScriptMachine.Numeral.Shortest

namespace ScriptMachine

/-- Kinds of value. -/
inductive Kind where
  | int | str | single | double
  deriving DecidableEq, Repr

/-- A script value. -/
inductive Value where
  | int (n : Int64)
  | str (s : String)
  | single (x : Float32)
  | double (x : Float)

instance : Inhabited Value := ⟨.int 0⟩

/-- The zero of a kind; for texts the empty one. -/
def Kind.zero : Kind → Value
  | int => .int 0
  | str => .str ""
  | single => .single 0
  | double => .double 0

namespace Value

/-- The integer 1 for true and 0 for false. -/
def ofBool (b : Bool) : Value :=
  .int (if b then 1 else 0)

/-- Kind of a value. -/
def kind : Value → Kind
  | int _ => .int
  | str _ => .str
  | single _ => .single
  | double _ => .double

/-- A number is true unless it is zero, a text unless it is empty. -/
def isTruthy : Value → Bool
  | int n => n != 0
  | str s => s != ""
  | single x => x != 0
  | double x => x != 0

/-! ## Coercions -/

/-- Exact meaning of a single float. -/
def singleMeaning (x : Float32) : Numeral.Meaning :=
  Numeral.binary32.decode x.toBits.toNat

/-- Exact meaning of a double float. -/
def doubleMeaning (x : Float) : Numeral.Meaning :=
  Numeral.binary64.decode x.toBits.toNat

/-- Single float of a bit pattern. -/
def singleOfBits (n : Nat) : Float32 :=
  Float32.ofBits (UInt32.ofNat n)

/-- Double float of a bit pattern. -/
def doubleOfBits (n : Nat) : Float :=
  Float.ofBits (UInt64.ofNat n)

/-- The number nearest to a single float, among the double floats: itself. -/
def widen (x : Float32) : Float :=
  doubleOfBits (Numeral.binary64.ofMeaning (singleMeaning x))

/-- The integer written by a text.  A blank text reads as -1, which scripts use
as "no value"; a finite decimal number is cut off at the point. -/
def integerOfText (s : String) : Except Error Int64 :=
  let cs := Text.trim s.toList
  if cs.isEmpty then .ok (-1)
  else
    match Text.readInt64? cs with
    | some n => .ok n
    | none =>
      match (Numeral.binary64.read? cs).map Numeral.binary64.decode with
      | some (.finite negative mantissa exponent) =>
        .ok (Numeral.Meaning.finite negative mantissa exponent).toInt64
      | _ => .error (.of (.notNumeric (String.ofList cs)))

/-- The integer of a value; a float is cut off at the point. -/
def toInteger : Value → Except Error Int64
  | int n => .ok n
  | str s => integerOfText s
  | single x => .ok (singleMeaning x).toInt64
  | double x => .ok (doubleMeaning x).toInt64

/-- The single float of a value. -/
def toSingle : Value → Except Error Float32
  | int n => .ok (singleOfBits (Numeral.binary32.ofInt n.toInt))
  | str s =>
    match Numeral.binary32.read? (Text.trim s.toList) with
    | some bits => .ok (singleOfBits bits)
    | none => .error (.of (.notNumeric s))
  | single x => .ok x
  | double x => .ok (singleOfBits (Numeral.binary32.ofMeaning (doubleMeaning x)))

/-- The double float of a value. -/
def toDouble : Value → Except Error Float
  | int n => .ok (doubleOfBits (Numeral.binary64.ofInt n.toInt))
  | str s =>
    match Numeral.binary64.read? (Text.trim s.toList) with
    | some bits => .ok (doubleOfBits bits)
    | none => .error (.of (.notNumeric s))
  | single x => .ok (widen x)
  | double x => .ok x

/-- The text of a value. -/
def toText : Value → String
  | int n => Text.decimal n.toInt
  | str s => s
  | single x => Numeral.binary32.text x.toBits.toNat
  | double x => Numeral.binary64.text x.toBits.toNat

/-- The value as one of another kind. -/
def coerce (v : Value) : Kind → Except Error Value
  | .int => int <$> v.toInteger
  | .str => .ok (str v.toText)
  | .single => single <$> v.toSingle
  | .double => double <$> v.toDouble

end Value

end ScriptMachine
