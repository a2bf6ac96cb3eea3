/-
  ScriptMachine.Proofs.Structured.Syntax

  Structured scripts: declarations, assignments, ladders of conditions, loops and
  choices, as trees, and their text with one statement per line.  Names, digits
  and string literals carry what makes them one word of a line.
-/

import ScriptMachine.Stream.Instruction
import ScriptMachine.Symbol.Table
import ScriptMachine.Text.Length
import ScriptMachine.Vocabulary.Variable

namespace ScriptMachine.Structured

/-! ## Words -/

/-- A letter: of ASCII, or any other character that is not blank. -/
def isLetter (c : Char) : Bool :=
  c.isAlpha || (128 ≤ c.toNat && !Text.isBlank c)

/-- The name of a variable: letters and digits, a letter first, not reserved. -/
structure Name where
  first : Char
  rest : List Char
  letter : isLetter first = true
  alphanumeric : ∀ c ∈ rest, (isLetter c || c.isDigit) = true
  unreserved : Symbols.isReserved (String.ofList (first :: rest)) = false

namespace Name

/-- Characters of a name. -/
def chars (x : Name) : List Char :=
  x.first :: x.rest

/-- The name as a string. -/
def text (x : Name) : String :=
  String.ofList x.chars

end Name

/-- A number in decimal digits that fits 63 bits. -/
structure Digits where
  chars : List Char
  digits : Text.isDigits chars = true
  bounded : Nat.ofDigitChars 10 chars 0 ≤ 9223372036854775807

/-- The number that digits stand for. -/
def Digits.value (d : Digits) : Int64 :=
  Int64.ofNat (Nat.ofDigitChars 10 d.chars 0)

/-- The inside of a string literal: on one line, without a quote, and shorter than
250 bytes. -/
structure Quoted where
  chars : List Char
  inside : ∀ c ∈ chars, c ≠ '"' ∧ c ≠ '\n' ∧ c ≠ '\r'
  short : Text.utf8Length chars < 250

/-- The text that a string literal stands for. -/
def Quoted.text (q : Quoted) : String :=
  String.ofList q.chars

/-- A spelling of an operator. -/
abbrev Sign := { s : List Char × Operator // s ∈ Operator.spellings }

/-! ## Expressions -/

/-- An operand. -/
inductive Term where
  | number (d : Digits)
  | text (q : Quoted)
  | var (x : Name)

/-- Operands with signs between them. -/
inductive Expr where
  | last (t : Term)
  | more (t : Term) (sign : Sign) (rest : Expr)

/-- What an assignment does with its variable. -/
inductive Change where
  | store (how : Assignment) (e : Expr)
  | increment
  | decrement

/-! ## Statements -/

mutual

/-- One statement. -/
inductive Stmt where
  /-- A declaration, possibly with an assignment. -/
  | declare (x : Name) (change : Option Change)
  | assign (x : Name) (change : Change)
  /-- A ladder of conditions. -/
  | branch (test : Expr) (body : Block) (others : Branches)
  | loop (test : Expr) (body : Block)
  /-- Leaves the innermost loop. -/
  | exit
  | choose (value : Expr) (clauses : Clauses)
  /-- Leaves the innermost choice. -/
  | leave

/-- Statements in order. -/
inductive Block where
  | nil
  | cons (s : Stmt) (rest : Block)

/-- The branches behind the first one of a ladder. -/
inductive Branches where
  | nil
  | otherwise (body : Block)
  | also (test : Expr) (body : Block) (others : Branches)

/-- The clauses of a choice. -/
inductive Clauses where
  | nil
  | case (value : Expr) (body : Block) (rest : Clauses)
  | default (body : Block) (rest : Clauses)

end

/-! ## Texts -/

/-- Text of an operand. -/
def Term.chars : Term → List Char
  | number d => d.chars
  | text q => '"' :: q.chars ++ ['"']
  | var x => x.chars

/-- Text of an expression. -/
def Expr.chars : Expr → List Char
  | last t => t.chars
  | more t sign rest => t.chars ++ ' ' :: (sign.1.1 ++ ' ' :: rest.chars)

/-- Spelling of an assigning operator. -/
def spelling : Assignment → List Char
  | .mov => ['=']
  | .add => ['+', '=']
  | .sub => ['-', '=']
  | .mul => ['*', '=']
  | .div => ['/', '=']
  | .mod => ['%', '=']

/-- What stands behind the variable of an assignment. -/
def Change.chars : Change → List Char
  | store how e => spelling how ++ ' ' :: e.chars
  | increment => ['+', '+']
  | decrement => ['-', '-']

/-- A command word alone on its line. -/
def alone (w : Word) : List Char :=
  w.spelling.toList

/-- A command word and what follows it. -/
def headed (w : Word) (cs : List Char) : List Char :=
  w.spelling.toList ++ ' ' :: cs

mutual

/-- Lines of a statement. -/
def Stmt.lines : Stmt → List (List Char)
  | .declare x none => [headed .var x.chars]
  | .declare x (some change) => [headed .var (x.chars ++ ' ' :: change.chars)]
  | .assign x change => [x.chars ++ ' ' :: change.chars]
  | .branch test body others =>
    headed .ifThen test.chars :: (body.lines ++ others.lines ++ [alone .endIf])
  | .loop test body => headed .whileDo test.chars :: (body.lines ++ [alone .endWhile])
  | .exit => [alone .exitWhile]
  | .choose value clauses =>
    headed .choose value.chars :: (clauses.lines ++ [alone .endChoose])
  | .leave => [alone .breakOut]

/-- Lines of a block. -/
def Block.lines : Block → List (List Char)
  | .nil => []
  | .cons s rest => s.lines ++ rest.lines

/-- Lines of further branches. -/
def Branches.lines : Branches → List (List Char)
  | .nil => []
  | .otherwise body => alone .otherwise :: body.lines
  | .also test body others =>
    headed .elseIf test.chars :: (body.lines ++ others.lines)

/-- Lines of clauses. -/
def Clauses.lines : Clauses → List (List Char)
  | .nil => []
  | .case value body rest => headed .caseOf value.chars :: (body.lines ++ rest.lines)
  | .default body rest => alone .default :: (body.lines ++ rest.lines)

end

/-- The script: every line with a line feed behind it. -/
def Block.source (b : Block) : String :=
  String.ofList (b.lines.flatMap fun line => line ++ ['\n'])

/-! ## Exits of loops -/

mutual

/-- Every exit of the statement belongs to a loop that no choice stands between;
`looped` tells whether there is one around the statement. -/
def Stmt.scoped (looped : Bool) : Stmt → Bool
  | .declare .. | .assign .. | .leave => true
  | .branch _ body others => body.scoped looped && others.scoped looped
  | .loop _ body => body.scoped true
  | .exit => looped
  | .choose _ clauses => clauses.scoped false

/-- Every exit of the block belongs to such a loop. -/
def Block.scoped (looped : Bool) : Block → Bool
  | .nil => true
  | .cons s rest => s.scoped looped && rest.scoped looped

/-- Every exit of the branches belongs to such a loop. -/
def Branches.scoped (looped : Bool) : Branches → Bool
  | .nil => true
  | .otherwise body => body.scoped looped
  | .also _ body others => body.scoped looped && others.scoped looped

/-- Every exit of the clauses belongs to such a loop. -/
def Clauses.scoped (looped : Bool) : Clauses → Bool
  | .nil => true
  | .case _ body rest => body.scoped looped && rest.scoped looped
  | .default body rest => body.scoped looped && rest.scoped looped

end

/-! ## Variables -/

mutual

/-- The variables that a statement declares or stores. -/
def Stmt.variables : Stmt → List String
  | .declare x _ | .assign x _ => [x.text]
  | .branch _ body others => body.variables ++ others.variables
  | .loop _ body => body.variables
  | .exit | .leave => []
  | .choose _ clauses => caseName :: clauses.variables

/-- The variables that a block declares or stores. -/
def Block.variables : Block → List String
  | .nil => []
  | .cons s rest => s.variables ++ rest.variables

/-- The variables that branches declare or store. -/
def Branches.variables : Branches → List String
  | .nil => []
  | .otherwise body => body.variables
  | .also _ body others => body.variables ++ others.variables

/-- The variables that clauses declare or store. -/
def Clauses.variables : Clauses → List String
  | .nil => []
  | .case _ body rest => body.variables ++ rest.variables
  | .default body rest => body.variables ++ rest.variables

end

end ScriptMachine.Structured
