/-
  ScriptMachine.Value.Arithmetic

  Arithmetic and comparison.  The kind of the left operand decides; the right
  one is coerced to it.  Integers wrap around at 64 bits, a division by zero gives
  the dividend, and on texts only addition means something: concatenation.
-/

import ScriptMachine.Text.UpperCase
import ScriptMachine.Value.Basic
import ScriptMachine.Vocabulary.Operator

namespace ScriptMachine.Value

/-! ## Arithmetic -/

/-- Sum, or concatenation for a text on the left. -/
def sum : Value → Value → Except Error Value
  | int l, r => return int (l + (← r.toInteger))
  | single l, r => return single (l + (← r.toSingle))
  | double l, r => return double (l + (← r.toDouble))
  | str l, r => return str (l ++ r.toText)

/-- Difference; a text stays as it is. -/
def subtract : Value → Value → Except Error Value
  | int l, r => return int (l - (← r.toInteger))
  | single l, r => return single (l - (← r.toSingle))
  | double l, r => return double (l - (← r.toDouble))
  | str l, _ => return str l

/-- Product; a text stays as it is. -/
def multiply : Value → Value → Except Error Value
  | int l, r => return int (l * (← r.toInteger))
  | single l, r => return single (l * (← r.toSingle))
  | double l, r => return double (l * (← r.toDouble))
  | str l, _ => return str l

/-- Quotient, toward zero for integers.  A zero divisor leaves the dividend, and
a text stays as it is. -/
def divide : Value → Value → Except Error Value
  | int l, r => do
    let r ← r.toInteger
    return int (if r = 0 then l else l / r)
  | single l, r => do
    let r ← r.toSingle
    return single (if r == 0 then l else l / r)
  | double l, r => do
    let r ← r.toDouble
    return double (if r == 0 then l else l / r)
  | str l, _ => return str l

/-- Remainder of integers, with the sign of the dividend.  A zero divisor leaves
the dividend, and every other kind stays as it is. -/
def modulo : Value → Value → Except Error Value
  | int l, r => do
    let r ← r.toInteger
    return int (if r = 0 then l else l % r)
  | l, _ => return l

/-- Adds one to an integer. -/
def increment : Value → Value
  | int n => int (n + 1)
  | v => v

/-- Takes one from an integer. -/
def decrement : Value → Value
  | int n => int (n - 1)
  | v => v

/-! ## Comparison -/

/-- Floats closer than this are equal. -/
def tolerance : Float := 0.0001

/-- Equality up to the tolerance for floats and up to case for texts. -/
def equal : Value → Value → Except Error Bool
  | int l, r => return l == (← r.toInteger)
  | single l, r => return (widen l - widen (← r.toSingle)).abs < tolerance
  | double l, r => return (l - (← r.toDouble)).abs < tolerance
  | str l, r => return Text.fold l == Text.fold r.toText

/-- Equality of values of the same kind. -/
def same (l r : Value) : Except Error Bool :=
  if l.kind = r.kind then equal l r else return false

/-- Order of two floats, if they have one. -/
def floatOrder {α : Type} [LT α] [BEq α] [DecidableLT α] (l r : α) : Option Ordering :=
  if l < r then some .lt
  else if r < l then some .gt
  else if l == r then some .eq
  else none

/-- Order of two values, of texts up to case; a float that is no number has
none. -/
def order : Value → Value → Except Error (Option Ordering)
  | int l, r => return some (compare l.toInt (← r.toInteger).toInt)
  | single l, r => return floatOrder l (← r.toSingle)
  | double l, r => return floatOrder l (← r.toDouble)
  | str l, r => return some (compare (Text.fold l) (Text.fold r.toText))

/-! ## Operators -/

/-- Value of a binary operator.  The right side of `&&` and `||` is coerced only
where it decides. -/
def apply (op : Operator) (l r : Value) : Except Error Value :=
  match op with
  | .add => sum l r
  | .sub => subtract l r
  | .mul => multiply l r
  | .div => divide l r
  | .mod => modulo l r
  | .equal => return ofBool (← equal l r)
  | .notEqual => return ofBool !(← equal l r)
  | .greater => return ofBool ((← order l r) == some .gt)
  | .less => return ofBool ((← order l r) == some .lt)
  | .greaterEqual => do
    let o ← order l r
    return ofBool (o == some .gt || o == some .eq)
  | .lessEqual => do
    let o ← order l r
    return ofBool (o == some .lt || o == some .eq)
  | .and => if l.isTruthy then return ofBool (← r.coerce l.kind).isTruthy else return ofBool false
  | .or => if l.isTruthy then return ofBool true else return ofBool (← r.coerce l.kind).isTruthy
  | .close => throw (.of .closeIsNoOperator)

end ScriptMachine.Value
