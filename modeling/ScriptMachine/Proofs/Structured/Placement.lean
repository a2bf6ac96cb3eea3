/-
  ScriptMachine.Proofs.Structured.Placement

  Where the parts of a structured script stand in an instruction stream.  `At`
  says which instructions a part has, where it starts and ends, and where its jumps
  go; it speaks of addresses only, neither of labels nor of a run.
-/

import ScriptMachine.Proofs.Encoding
import ScriptMachine.Proofs.Structured.Syntax
import ScriptMachine.Stack
import ScriptMachine.Vocabulary.Variable

namespace ScriptMachine

namespace Structured

/-! ## Instructions of expressions and assignments -/

/-- Operand of a term. -/
def Term.operand : Term → Operand
  | number d => .num d.value
  | text q => .str q.text
  | var x => .var x.text

/-- Instruction tree of an expression. -/
def Expr.tree : Expr → Expression
  | last t => .last t.operand
  | more t sign rest => .more t.operand sign.1.2 rest.tree

/-- Instruction of an assignment. -/
def Change.instruction (x : Name) : Change → Instruction
  | store how e => .assign how x.text e.tree
  | increment => .increment x.text
  | decrement => .decrement x.text

/-! ## Placement -/

section
variable (c : Code)

/-- A condition stands at `p`; when true it goes on at `q`, else at `n`. -/
def Tests (p : Nat) (test : Expr) (q n : Nat) : Prop :=
  c.Has p (.unlessGoto test.tree (Int64.ofNat n)) q ∧ n < c.size

/-- A case stands at `p`; with a match it goes on at `q`, else at `n`. -/
def Matches (p : Nat) (value : Expr) (q n : Nat) : Prop :=
  c.Has p (.unlessCaseGoto value.tree (Int64.ofNat n)) q ∧ n < c.size

/-- A jump stands at `p` in front of `q` and goes to `dest`. -/
def Jumps (p dest q : Nat) : Prop :=
  c.Has p (.goto (Int64.ofNat dest)) q ∧ dest < c.size

mutual

/-- The statement stands between `start` and `finish`, inside `depth` choices; a
loop is left to `exit` and a choice to `leave`. -/
def Stmt.At (depth start finish exit leave : Nat) : Stmt → Prop
  | .declare _ none => finish = start
  | .declare x (some change) => c.Has start (change.instruction x) finish
  | .assign x change => c.Has start (change.instruction x) finish
  | .branch test body others => ∃ q r n, Tests c start test q n ∧
      body.At depth q r exit leave ∧ others.At depth r n finish exit leave
  | .loop test body => ∃ q r, Tests c start test q finish ∧
      body.At depth q r finish leave ∧ Jumps c r start finish
  | .exit => Jumps c start exit finish
  | .choose value clauses => depth < Stack.limit ∧ ∃ q r t, c.Has start (.push caseName) q ∧
      c.Has q (.assign .mov caseName value.tree) r ∧ clauses.At (depth + 1) r t exit t ∧
      c.Has t (.pop caseName) finish
  | .leave => 0 < depth ∧ Jumps c start leave finish

/-- The block stands between `start` and `finish`. -/
def Block.At (depth start finish exit leave : Nat) : Block → Prop
  | .nil => finish = start
  | .cons s rest => ∃ q, s.At depth start q exit leave ∧ rest.At depth q finish exit leave

/-- Further branches stand between `start` and `finish`, where the ladder ends; the
branch before them comes to `start`, and its failed test to `next`. -/
def Branches.At (depth start next finish exit leave : Nat) : Branches → Prop
  | .nil => start = finish ∧ next = finish
  | .otherwise body => Jumps c start finish next ∧ body.At depth next finish exit leave
  | .also test body others => Jumps c start finish next ∧ ∃ q r n, Tests c next test q n ∧
      body.At depth q r exit leave ∧ others.At depth r n finish exit leave

/-- The clauses stand between `start` and `finish`. -/
def Clauses.At (depth start finish exit leave : Nat) : Clauses → Prop
  | .nil => finish = start
  | .case value body rest => ∃ q n, Matches c start value q n ∧
      body.At depth q n exit leave ∧ rest.At depth n finish exit leave
  | .default body rest => ∃ n, body.At depth start n exit leave ∧
      rest.At depth n finish exit leave

end

end

end Structured

end ScriptMachine
