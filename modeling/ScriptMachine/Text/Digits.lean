/-
  ScriptMachine.Text.Digits

  Whole numbers as text: decimal with a sign, lower-case hexadecimal, and the
  reading of 64-bit decimal numbers.  `readInt64?` accepts what `decimal` writes
  and also a leading `+` and leading zeros; a number that does not fit 64 bits
  is refused.
-/

namespace ScriptMachine.Text

/-- Decimal text of an integer. -/
def decimal : Int → String
  | .ofNat n => String.ofList (Nat.toDigits 10 n)
  | .negSucc n => String.ofList ('-' :: Nat.toDigits 10 (n + 1))

/-- Lower-case hexadecimal text of a natural number. -/
def hex (n : Nat) : String :=
  String.ofList (Nat.toDigits 16 n)

/-- Hexadecimal text padded on the left with `pad` up to `width` characters. -/
def hexPadded (pad : Char) (width n : Nat) : String :=
  String.ofList ((Nat.toDigits 16 n).leftpad width pad)

/-- Hexadecimal text behind the mark `0x`. -/
def hexMarked (n : Nat) : String :=
  "0x" ++ hex n

/-- Two hexadecimal digits behind the mark `0x`. -/
def hexByte (b : UInt8) : String :=
  "0x" ++ hexPadded '0' 2 b.toNat

/-- Two hexadecimal digits per byte. -/
def hexBytes (bs : Array UInt8) : String :=
  bs.foldl (fun s b => s ++ hexPadded '0' 2 b.toNat) ""

/-- A non-empty run of the digits `0` to `9`. -/
def isDigits (cs : List Char) : Bool :=
  !cs.isEmpty && cs.all Char.isDigit

/-- Value of a non-empty run of decimal digits. -/
def readNat? (cs : List Char) : Option Nat :=
  if isDigits cs then some (Nat.ofDigitChars 10 cs 0) else none

/-- A magnitude with an optional sign. -/
def readSigned? (magnitude? : List Char → Option Nat) : List Char → Option Int
  | '-' :: cs => (magnitude? cs).map fun n => -(n : Int)
  | '+' :: cs => (magnitude? cs).map Int.ofNat
  | cs => (magnitude? cs).map Int.ofNat

/-- An integer with an optional sign. -/
def readInt? (cs : List Char) : Option Int :=
  readSigned? readNat? cs

/-- A signed decimal number of 64 bits. -/
def readInt64? (cs : List Char) : Option Int64 :=
  (readInt? cs).bind fun n =>
    if Int64.minValue.toInt ≤ n ∧ n ≤ Int64.maxValue.toInt then some (Int64.ofInt n) else none

/-! ## Small facts -/

/-- Decimal texts are those of core. -/
theorem decimal_eq_toString (n : Int) : decimal n = toString n := by
  cases n with
  | ofNat n => rfl
  | negSucc n =>
    have hrepr : toString (Int.negSucc n) = "-" ++ (n + 1).repr := rfl
    rw [hrepr, Nat.repr_eq_ofList_toDigits, ← String.toList_inj]
    simp [decimal]

theorem isDigits_toDigits (n : Nat) : isDigits (Nat.toDigits 10 n) = true := by
  have hne : (Nat.toDigits 10 n).isEmpty = false :=
    List.isEmpty_eq_false_iff.2 Nat.toDigits_ne_nil
  have hall : (Nat.toDigits 10 n).all Char.isDigit = true :=
    List.all_eq_true.2 fun c hc => Nat.isDigit_of_mem_toDigits (by decide) (by decide) hc
  rw [isDigits, hne, hall]
  rfl

theorem readNat?_toDigits (n : Nat) : readNat? (Nat.toDigits 10 n) = some n := by
  rw [readNat?, if_pos (isDigits_toDigits n), Nat.ofDigitChars_ten_toDigits]

/-- What begins with a digit has no sign. -/
theorem readSigned?_of_isDigits {magnitude? : List Char → Option Nat} {cs : List Char}
    (h : isDigits cs = true) : readSigned? magnitude? cs = (magnitude? cs).map Int.ofNat := by
  unfold readSigned?
  split
  · simp [isDigits] at h
  · simp [isDigits] at h
  · rfl

/-- What is written reads back. -/
theorem readInt?_decimal (n : Int) : readInt? (decimal n).toList = some n := by
  cases n with
  | ofNat n =>
    rw [decimal, String.toList_ofList, readInt?, readSigned?_of_isDigits (isDigits_toDigits n),
      readNat?_toDigits]
    rfl
  | negSucc n =>
    rw [decimal, String.toList_ofList, readInt?, readSigned?, readNat?_toDigits]
    rfl

/-- No number of 64 bits is refused. -/
theorem readInt64?_decimal (n : Int64) : readInt64? (decimal n.toInt).toList = some n := by
  rw [readInt64?, readInt?_decimal, Option.bind_some,
    if_pos ⟨Int64.minValue_le_toInt n, Int64.toInt_le n⟩, Int64.ofInt_toInt]

end ScriptMachine.Text
