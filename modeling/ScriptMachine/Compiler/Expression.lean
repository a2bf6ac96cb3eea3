/-
  ScriptMachine.Compiler.Expression

  Expressions and calls.  An expression is operands with operators between them;
  an operand may be a call, whose arguments are expressions again.  Every operand
  takes at least one character of the line, which is why the three readers call
  each other only finitely often.
-/

import ScriptMachine.Compiler.Draft
import ScriptMachine.Source.Scanner
import ScriptMachine.Symbol.Table
import ScriptMachine.Vocabulary.Variable

namespace ScriptMachine

/-- What expressions are compiled against. -/
structure Context where
  /-- The symbols known so far. -/
  symbols : Symbols
  /-- String literals are shorter than this many bytes. -/
  maxString : Nat
  /-- The error of calling a function here, if that is not allowed. -/
  mayCall : UInt16 → Except Error Unit

/-- The blanks between the words of a line. -/
def blanks : List Char := [' ', '\t']

/-- The characters that end an operand. -/
def operandStop : List Char :=
  ['%', '!', '=', '+', '-', '/', '*', '&', '|', '>', '<', ' ', '\t', '[', ']', ',']

namespace Scanner

/-- Nothing but blanks may be left. -/
def expectEnd (s : Scanner) : Except Error Unit :=
  let s := s.skip blanks
  if s.isEmpty then .ok ()
  else
    .error ((Error.of (.unexpectedText (String.ofList s.rest))).inColumns s.offset s.lineEnd)

/-- A scanner that is not before `s`. -/
abbrev From (s : Scanner) : Type :=
  { t : Scanner // t.rest.length ≤ s.rest.length }

/-- A scanner that is not before `t` is not before an earlier `s`. -/
def From.weaken {s t : Scanner} (h : t.rest.length ≤ s.rest.length) (u : t.From) : s.From :=
  ⟨u.1, Nat.le_trans u.2 h⟩

/-- Something that may be missing: found, with characters taken from the line, or
absent. -/
inductive Optional (s : Scanner) where
  | found (t : Scanner) (shorter : t.rest.length < s.rest.length)
  | absent (t : Scanner) (notLonger : t.rest.length ≤ s.rest.length)

/-- What was read from a later place, seen from an earlier one. -/
def Optional.from {s t : Scanner} (h : t.rest.length ≤ s.rest.length) : t.Optional → s.Optional
  | found u hu => .found u (Nat.lt_of_lt_of_le hu h)
  | absent u hu => .absent u (Nat.le_trans hu h)

end Scanner

/-- Writes a constant as an operand. -/
def Constant.draft : Constant → Draft Unit
  | number n => .put (.num n)
  | text s => .put (.str s)

/-- A pair is smaller when its first part does not grow and its second shrinks. -/
theorem lex_of_le {a b m n : Nat} (h : a ≤ b) (k : m < n) :
    Prod.Lex (· < ·) (· < ·) (a, m) (b, n) := by
  rw [Prod.lex_def]
  simp only
  omega

namespace Context

/-! ## Operands without calls -/

/-- A string literal. -/
def literal (ctx : Context) (s : Scanner) : Draft s.Optional :=
  match h : s.delimited? '"' with
  | none => .fail ((Error.of .unterminatedString).inColumns s.offset s.lineEnd)
  | some (text, t) =>
    let size := Text.utf8Length text
    if ctx.maxString ≤ size then
      .fail ((Error.of (.stringTooLong size)).inColumns s.offset t.offset)
    else do
      Draft.put (.str (String.ofList text))
      return .found t (Scanner.length_delimited_lt h)

/-- A constant between two `#`. -/
def markedConstant (ctx : Context) (s : Scanner) : Draft s.Optional :=
  match h : s.delimited? '#' with
  | none => .fail ((Error.of .missingClosingMark).inColumns s.offset (s.offset + 1))
  | some (name, t) =>
    match ctx.symbols.get? (String.ofList name) with
    | some (.constant c) => do
      c.draft
      return .found t (Scanner.length_delimited_lt h)
    | _ =>
      .fail ((Error.of (.undefinedConstant (String.ofList name))).inColumns s.offset t.offset)

/-- A decimal number. -/
def digits (word : List Char) (start stop : Nat) : Draft Unit :=
  match Text.readInt64? word with
  | some n => .put (.num n)
  | none => .fail ((Error.of (.numberOutOfRange (String.ofList word))).inColumns start stop)

/-! ## Expressions -/

mutual

/-- Writes an expression: operands, each followed by its operator, and the
closing operator last.  Without a first operand nothing is written. -/
def expression (ctx : Context) (first : Bool) (s : Scanner) : Draft s.Optional := do
  let t := s.skip (blanks ++ ['['])
  have ht : t.rest.length ≤ s.rest.length := Scanner.length_skip_le _ s
  match ← ctx.operand first t with
  | .absent u hu => return .absent u (Nat.le_trans hu ht)
  | .found u hu =>
    let v := u.skip (blanks ++ [','])
    have hv : v.rest.length ≤ u.rest.length := Scanner.length_skip_le _ u
    match hop : v.operator? Operator.chars with
    | none =>
      Draft.put (.operator .close)
      return .found (v.skip [']']) (by have := Scanner.length_skip_le [']'] v; omega)
    | some (spelling, w) =>
      match Operator.ofSpelling? spelling with
      | none =>
        .fail ((Error.of (.notOperator (String.ofList spelling))).inColumns v.offset w.offset)
      | some op =>
        Draft.put (.operator op)
        have hw : w.rest.length < s.rest.length := by
          have := Scanner.length_operator_lt hop; omega
        (·.from (Nat.le_of_lt hw)) <$> ctx.expression false w
termination_by (s.rest.length, 1)
decreasing_by
  · exact lex_of_le ht (by omega)
  · exact Prod.Lex.left _ _ hw

/-- Writes one operand.  Only the first operand of an expression may be absent. -/
def operand (ctx : Context) (first : Bool) (s : Scanner) : Draft s.Optional :=
  match s.rest with
  | '"' :: _ => ctx.literal s
  | '#' :: _ => ctx.markedConstant s
  | _ =>
    let missing : Draft s.Optional :=
      if first then return .absent s (Nat.le_refl _)
      else .fail ((Error.of .missingOperand).inColumns s.offset (s.offset + 1))
    match hw : s.word? operandStop with
    | none => missing
    | some (word, t) =>
      if hne : word = [] then missing
      else
        have shorter := Scanner.length_word_lt hw hne
        let name := String.ofList word
        if Text.isDigits word then do
          digits word s.offset t.offset
          return .found t shorter
        else
          match ctx.symbols.get? name with
          | some .var => do
            Draft.put (.var name)
            return .found t shorter
          | some (.constant c) => do
            c.draft
            return .found t shorter
          | some (.function code params) => do
            Draft.put .call
            (fun u => .found u.1 (Nat.lt_of_le_of_lt u.2 shorter)) <$> ctx.call code params t
          | some (.command _) =>
            .fail ((Error.of (.commandInExpression name)).inColumns s.offset t.offset)
          | none => .fail ((Error.of (.undefined name)).inColumns s.offset t.offset)
termination_by (s.rest.length, 0)
decreasing_by exact Prod.Lex.left _ _ shorter

/-- Writes a call of a function and its arguments. -/
def call (ctx : Context) (code : UInt16) (params : List Param) (s : Scanner) : Draft s.From := do
  Draft.ofExcept (ctx.mayCall code)
  Draft.put (.code .func)
  Draft.put (.func code)
  ctx.arguments 1 params s
termination_by (s.rest.length, 3 + params.length)
decreasing_by exact Prod.Lex.right _ (by omega)

/-- Writes the arguments that a shape asks for; `place` is the place of its first
parameter.  An optional parameter is asked for again until it is absent; then the
null variable stands for it and ends the arguments. -/
def arguments (ctx : Context) (place : Nat) (params : List Param) (s : Scanner) :
    Draft s.From :=
  match params with
  | [] | .stop :: _ => do
    Draft.put .paramsEnd
    return ⟨s, Nat.le_refl _⟩
  | .skip :: rest =>
    let t := s.skip blanks
    have ht : t.rest.length ≤ s.rest.length := Scanner.length_skip_le _ s
    match hw : t.word? blanks with
    | none => Scanner.From.weaken ht <$> ctx.arguments (place + 1) rest t
    | some (_, v) =>
      have hv : v.rest.length ≤ s.rest.length := Nat.le_trans (Scanner.length_word_le hw) ht
      Scanner.From.weaken hv <$> ctx.arguments (place + 1) rest v
  | .optional :: rest => do
    Draft.put (.param .optional)
    match ← ctx.expression true s with
    | .found t ht =>
      Scanner.From.weaken (Nat.le_of_lt ht) <$> ctx.arguments place (.optional :: rest) t
    | .absent t ht =>
      Draft.put (.var nullName)
      Draft.put (.operator .close)
      Draft.put .paramsEnd
      return ⟨t, ht⟩
  | param :: rest => do
    Draft.put (.param param)
    match ← ctx.expression true s with
    | .found t ht =>
      Scanner.From.weaken (Nat.le_of_lt ht) <$> ctx.arguments (place + 1) rest t
    | .absent .. => Draft.fail (.of (.missingParameter place param))
termination_by (s.rest.length, 2 + params.length)
decreasing_by
  · exact lex_of_le ht (by simp)
  · exact lex_of_le hv (by simp)
  · exact Prod.Lex.right _ (by omega)
  · exact Prod.Lex.left _ _ ht
  · exact Prod.Lex.right _ (by omega)
  · exact Prod.Lex.left _ _ ht

end

/-- Writes an expression, if there is one. -/
def value (ctx : Context) (s : Scanner) : Draft s.Optional :=
  ctx.expression true s

/-! ## Assignments -/

/-- Instruction of an assignment operator. -/
def assignmentOpcode? (spelling : List Char) : Option Opcode :=
  match spelling with
  | ['='] => some .mov
  | ['+', '='] => some .add
  | ['-', '='] => some .sub
  | ['*', '='] => some .mul
  | ['/', '='] => some .div
  | ['%', '='] => some .mod
  | ['+', '+'] => some .inc
  | ['-', '-'] => some .dec
  | _ => none

/-- Writes what stands behind the name of a variable: nothing, a step up or down,
or an assignment of an expression. -/
def assignment (ctx : Context) (name : String) (s : Scanner) : Draft Unit :=
  let t := s.skip blanks
  match t.operator? ['=', '+', '-', '*', '/', '%'] with
  | none => .ofExcept t.expectEnd
  | some (spelling, u) =>
    match assignmentOpcode? spelling with
    | none =>
      .fail ((Error.of (.notAssignment (String.ofList spelling))).inColumns t.offset u.offset)
    | some opcode => do
      Draft.put (.code opcode)
      Draft.put (.var name)
      if opcode = .inc ∨ opcode = .dec then Draft.ofExcept u.expectEnd
      else
        match ← ctx.value u with
        | .found v _ => Draft.ofExcept v.expectEnd
        | .absent v _ =>
          Draft.fail ((Error.of (.missingValueFor name)).inColumns t.offset v.offset)

/-- Writes an instruction with an expression that ends its line; `missing` is the
cause to report without one. -/
def lastValue (ctx : Context) (opcode : Opcode) (missing : Cause) (s : Scanner) :
    Draft Unit := do
  Draft.put (.code opcode)
  match ← ctx.value s with
  | .found t _ => Draft.ofExcept t.expectEnd
  | .absent .. => Draft.fail (.of missing)

end Context

end ScriptMachine
