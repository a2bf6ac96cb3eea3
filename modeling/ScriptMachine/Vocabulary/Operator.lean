/-
  ScriptMachine.Vocabulary.Operator

  The operators of expressions.  In the instruction stream one operator byte
  follows every operand, and `close` ends the expression.
-/

namespace ScriptMachine

/-- The operators of expressions, with the closing mark. -/
inductive Operator where
  | close
  | equal | notEqual | greater | less
  | and | or
  | add | sub | mul | div | mod
  | greaterEqual | lessEqual
  deriving DecidableEq, Repr

namespace Operator

/-- All operators, in the order of their bytes. -/
def all : List Operator :=
  [close, equal, notEqual, greater, less, and, or, add, sub, mul, div, mod, greaterEqual,
    lessEqual]

/-- Byte of an operator. -/
def toByte : Operator → UInt8
  | close => 0
  | equal => 1
  | notEqual => 2
  | greater => 3
  | less => 4
  | and => 5
  | or => 6
  | add => 7
  | sub => 8
  | mul => 9
  | div => 10
  | mod => 11
  | greaterEqual => 12
  | lessEqual => 13

/-- Operator of a byte. -/
def ofByte? (b : UInt8) : Option Operator :=
  all.find? (·.toByte == b)

/-- Symbol of an operator in listings. -/
def symbol : Operator → String
  | close => ";"
  | equal => "=="
  | notEqual => "!="
  | greater => ">"
  | less => "<"
  | and => "&&"
  | or => "||"
  | add => "+"
  | sub => "-"
  | mul => "*"
  | div => "/"
  | mod => "%"
  | greaterEqual => ">="
  | lessEqual => "<="

/-- The characters that may form an operator in a script. -/
def chars : List Char :=
  ['%', '=', '+', '-', '/', '*', '&', '|', '>', '<', '!']

/-- The spellings of the operators in a script; some have two. -/
def spellings : List (List Char × Operator) :=
  [(['='], equal), (['=', '='], equal), (['!', '='], notEqual), (['<', '>'], notEqual),
    (['>', '='], greaterEqual), (['=', '>'], greaterEqual), (['<', '='], lessEqual),
    (['=', '<'], lessEqual), (['>'], greater), (['<'], less), (['&', '&'], and), (['&'], and),
    (['|', '|'], or), (['|'], or), (['+'], add), (['-'], sub), (['*'], mul), (['/'], div),
    (['%'], mod)]

/-- Operator of a spelling. -/
def ofSpelling? (cs : List Char) : Option Operator :=
  (spellings.find? (·.1 == cs)).map (·.2)

/-- The operators that are folded before all others. -/
def isMultiplicative (o : Operator) : Bool :=
  o = mul || o = div

theorem ofByte?_eq_some_iff {b : UInt8} {o : Operator} : ofByte? b = some o ↔ b = o.toByte := by
  constructor
  · intro h
    have hb := List.find?_some h
    exact (beq_iff_eq.1 hb).symm
  · rintro rfl
    cases o <;> rfl

@[simp] theorem ofByte?_toByte (o : Operator) : ofByte? o.toByte = some o :=
  ofByte?_eq_some_iff.2 rfl

/-- No spelling stands for the closing mark. -/
theorem ofSpelling?_ne_close (cs : List Char) : ofSpelling? cs ≠ some close := by
  intro h
  obtain ⟨p, hp, hc⟩ := Option.map_eq_some_iff.1 h
  have hall : ∀ p ∈ spellings, p.2 ≠ close := by decide
  exact hall p (List.mem_of_find?_eq_some hp) hc

end Operator

end ScriptMachine
