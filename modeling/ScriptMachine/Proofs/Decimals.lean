/-
  ScriptMachine.Proofs.Decimals

  Integers written as texts.  The decimal text of an integer has no blank characters, so
  trimming takes away what stands around it, and the reader of 64-bit numbers takes it as it
  is: nothing is rounded, since no text of a 64-bit integer comes to the reader of floats.
  So an integer survives the way through a text, with any blank characters around it
  (`Value.integers_survive_text`).
-/

import ScriptMachine.Proofs.Structured.Lexing
import ScriptMachine.Value.Arithmetic

namespace ScriptMachine

-- ============================================================================
-- Decimal texts
-- ============================================================================

namespace Text

theorem isBlank_of_isDigit {c : Char} (h : c.isDigit = true) : isBlank c = false := by
  have hbounds := Structured.toNat_of_isDigit h
  exact Structured.isBlank_of_ascii (by omega) (by omega)

theorem not_blank_toDigits (n : Nat) : ∀ c ∈ Nat.toDigits 10 n, isBlank c = false :=
  fun _ hc => isBlank_of_isDigit (Nat.isDigit_of_mem_toDigits (by decide) (by decide) hc)

/-- A decimal text is a sign at most and digits. -/
theorem not_blank_decimal (n : Int) : ∀ c ∈ (decimal n).toList, isBlank c = false := by
  intro c hc
  cases n with
  | ofNat n =>
    rw [decimal, String.toList_ofList] at hc
    exact not_blank_toDigits n c hc
  | negSucc n =>
    rw [decimal, String.toList_ofList] at hc
    obtain rfl | hc := List.mem_cons.1 hc
    · decide
    · exact not_blank_toDigits (n + 1) c hc

theorem decimal_ne_nil (n : Int) : (decimal n).toList ≠ [] := by
  cases n <;> simp [decimal, Nat.toDigits_ne_nil]

end Text

-- ============================================================================
-- Values
-- ============================================================================

namespace Value

/-- A text with an integer and blank characters around it reads as the integer. -/
theorem integerOfText_around (n : Int64) (as bs : List Char)
    (has : ∀ a ∈ as, Text.isBlank a = true) (hbs : ∀ b ∈ bs, Text.isBlank b = true) :
    integerOfText (String.ofList as ++ toString n.toInt ++ String.ofList bs) = .ok n := by
  have htrim : Text.trim (String.ofList as ++ toString n.toInt ++ String.ofList bs).toList =
      (Text.decimal n.toInt).toList := by
    rw [← Text.decimal_eq_toString, String.toList_append, String.toList_append,
      String.toList_ofList, String.toList_ofList, List.append_assoc]
    exact Text.trim_around has (Text.not_blank_decimal _) hbs
  have hempty : (Text.decimal n.toInt).toList.isEmpty = false :=
    List.isEmpty_eq_false_iff.2 (Text.decimal_ne_nil _)
  simp only [integerOfText, htrim, hempty, Bool.false_eq_true, if_false, Text.readInt64?_decimal]

/-- Integers survive the way through a text.  An integer as a text, and that as an integer
again, is the same integer; its decimal text reads as it with any blank characters around,
and such a text is equal to this integer and to no other one. -/
theorem integers_survive_text (n : Int64) (as bs : List Char)
    (has : ∀ a ∈ as, Text.isBlank a = true) (hbs : ∀ b ∈ bs, Text.isBlank b = true) :
    ((int n).coerce .str >>= fun s => s.coerce .int) = .ok (int n) ∧
    (str (String.ofList as ++ toString n.toInt ++ String.ofList bs)).coerce .int = .ok (int n) ∧
    ∀ m, equal (int m) (str (String.ofList as ++ toString n.toInt ++ String.ofList bs)) =
      .ok (decide (m = n)) := by
  have hread := integerOfText_around n as bs has hbs
  refine ⟨?_, ?_, fun m => ?_⟩
  · have hplain := integerOfText_around n [] [] (by simp) (by simp)
    have htext : String.ofList [] ++ toString n.toInt ++ String.ofList [] = (int n).toText := by
      simp [toText, Text.decimal_eq_toString]
    rw [htext] at hplain
    show int <$> integerOfText (int n).toText = .ok (int n)
    rw [hplain]
    rfl
  · show int <$> integerOfText _ = .ok (int n)
    rw [hread]
    rfl
  · rw [equal, toInteger, hread]
    rfl

theorem least_integer_survives_text :
    (∀ a ∈ [' ', '\t'], Text.isBlank a = true) ∧ (∀ b ∈ ['\t'], Text.isBlank b = true) ∧
    ((int Int64.minValue).coerce .str >>= fun s => s.coerce .int) = .ok (int Int64.minValue) ∧
    (str " \t-9223372036854775808\t").coerce .int = .ok (int Int64.minValue) ∧
    ∀ m, equal (int m) (str " \t-9223372036854775808\t") = .ok (decide (m = Int64.minValue)) := by
  have hfront : ∀ a ∈ [' ', '\t'], Text.isBlank a = true :=
    List.all_eq_true.1 (by decide)
  have hback : ∀ b ∈ ['\t'], Text.isBlank b = true := List.all_eq_true.1 (by decide)
  have htext : String.ofList [' ', '\t'] ++ toString Int64.minValue.toInt ++ String.ofList ['\t'] =
      " \t-9223372036854775808\t" := by decide
  have hsurvives := integers_survive_text Int64.minValue [' ', '\t'] ['\t'] hfront hback
  rw [htext] at hsurvives
  exact ⟨hfront, hback, hsurvives⟩

end Value

end ScriptMachine
