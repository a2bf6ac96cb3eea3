/-
  ScriptMachine.Stream.Instruction

  Instructions as a grammar, and their decoding.  A stream is well formed when
  it is a sequence of complete instructions; `Code.instructions` reads that
  sequence, each instruction with the address at which it starts.
-/

import ScriptMachine.Stream.Reading

namespace ScriptMachine

mutual

/-- An operand: a text, a number, a variable, or the result of a call. -/
inductive Operand where
  | str (text : String)
  | num (n : Int64)
  | var (name : String)
  | call (code : UInt16) (args : Args)

/-- The arguments of a call, each with its parameter type. -/
inductive Args where
  | nil
  | cons (param : Param) (value : Expression) (rest : Args)

/-- Operands with operators between them. -/
inductive Expression where
  | last (operand : Operand)
  | more (operand : Operand) (op : Operator) (rest : Expression)

end

/-- The instructions that store an expression in a variable. -/
inductive Assignment where
  | mov | add | sub | mul | div | mod
  deriving DecidableEq, Repr

/-- A complete instruction. -/
inductive Instruction where
  | stop
  | assign (how : Assignment) (name : String) (value : Expression)
  | increment (name : String)
  | decrement (name : String)
  | unlessGoto (condition : Expression) (dest : Int64)
  | unlessCaseGoto (value : Expression) (dest : Int64)
  | goto (dest : Int64)
  | func (code : UInt16) (args : Args)
  | push (name : String)
  | pop (name : String)

/-- Opcode of an assigning instruction. -/
def Assignment.opcode : Assignment → Opcode
  | mov => .mov
  | add => .add
  | sub => .sub
  | mul => .mul
  | div => .div
  | mod => .mod

/-- Opcode of an instruction. -/
def Instruction.opcode : Instruction → Opcode
  | stop => .stop
  | assign how .. => how.opcode
  | increment _ => .inc
  | decrement _ => .dec
  | unlessGoto .. => .cmp
  | unlessCaseGoto .. => .case
  | goto _ => .goto
  | func .. => .func
  | push _ => .push
  | pop _ => .pop

namespace Code

/-! ## Decoding -/

mutual

/-- Reads an expression up to its closing operator. -/
def expression (c : Code) (position : Nat) : c.Read Expression position := do
  let (operand, p) ← c.operand position
  let (b, q) ← c.byte p
  match Operator.ofByte? b with
  | none => .error ⟨.of (.unknownOperator b), q⟩
  | some .close => return (.last operand, p.trans q)
  | some op =>
    let (rest, r) ← c.expression q
    return (.more operand op rest, p.trans (q.trans r))
termination_by (c.size - position, 1)
decreasing_by
  · exact Prod.Lex.right _ (by omega)
  · have := p.2; have := q.2; exact Prod.Lex.left _ _ (by omega)

/-- Reads an operand with its tag. -/
def operand (c : Code) (position : Nat) : c.Read Operand position := do
  let (tag, p) ← c.tag position
  match tag with
  | .str =>
    let (s, q) ← c.text p
    return (.str s, p.trans q)
  | .num =>
    let (n, q) ← c.number p
    return (.num n, p.trans q)
  | .var =>
    let (s, q) ← c.text p
    return (.var s, p.trans q)
  | .call =>
    let (opcode, q) ← c.opcode p
    if opcode = .func then
      let (code, r) ← c.word q
      let (args, t) ← c.args r
      return (.call code args, p.trans (q.trans (r.trans t)))
    else fail (.callTo opcode) position q
  | .code => fail .codeInExpression position p
termination_by (c.size - position, 0)
decreasing_by
  have := p.2; have := q.2; have := r.2; exact Prod.Lex.left _ _ (by omega)

/-- Reads the arguments of a call up to their end mark. -/
def args (c : Code) (position : Nat) : c.Read Args position := do
  let (b, p) ← c.byte position
  if b = paramsEnd then return (.nil, p)
  else
    match Param.ofByte? b with
    | none => .error ⟨.of (.unknownParam b), p⟩
    | some param =>
      let (value, q) ← c.expression p
      let (rest, r) ← c.args q
      return (.cons param value rest, p.trans (q.trans r))
termination_by (c.size - position, 0)
decreasing_by
  · have := p.2; exact Prod.Lex.left _ _ (by omega)
  · have := p.2; have := q.2; exact Prod.Lex.left _ _ (by omega)

end

/-- Reads the name and the expression of an assigning instruction. -/
def assignment (c : Code) (how : Assignment) (position : Nat) : c.Read Instruction position := do
  let (name, p) ← c.taggedName position
  let (value, q) ← c.expression p
  return (.assign how name value, p.trans q)

/-- Reads what follows an instruction code; `stop` stands alone. -/
def operands (c : Code) (opcode : Opcode) (position : Nat) :
    Except Failure (Instruction × { p : Nat // position ≤ p ∧ p ≤ max position c.size }) :=
  let past (p : c.Past position) : { p : Nat // position ≤ p ∧ p ≤ max position c.size } :=
    ⟨p.1, by have := p.2; omega⟩
  match opcode with
  | .stop => return (.stop, ⟨position, by omega⟩)
  | .mov => do let (i, p) ← c.assignment .mov position; return (i, past p)
  | .add => do let (i, p) ← c.assignment .add position; return (i, past p)
  | .sub => do let (i, p) ← c.assignment .sub position; return (i, past p)
  | .mul => do let (i, p) ← c.assignment .mul position; return (i, past p)
  | .div => do let (i, p) ← c.assignment .div position; return (i, past p)
  | .mod => do let (i, p) ← c.assignment .mod position; return (i, past p)
  | .inc => do let (s, p) ← c.taggedName position; return (.increment s, past p)
  | .dec => do let (s, p) ← c.taggedName position; return (.decrement s, past p)
  | .push => do let (s, p) ← c.taggedName position; return (.push s, past p)
  | .pop => do let (s, p) ← c.taggedName position; return (.pop s, past p)
  | .cmp => do
    let (e, p) ← c.expression position
    let (n, q) ← c.taggedNumber p
    return (.unlessGoto e n, past (p.trans q))
  | .case => do
    let (e, p) ← c.expression position
    let (n, q) ← c.taggedNumber p
    return (.unlessCaseGoto e n, past (p.trans q))
  | .goto => do let (n, p) ← c.taggedNumber position; return (.goto n, past p)
  | .func => do
    let (code, p) ← c.word position
    let (args, q) ← c.args p
    return (.func code args, past (p.trans q))

/-- Reads one instruction. -/
def instruction (c : Code) (position : Nat) : c.Read Instruction position := do
  let (opcode, p) ← c.opcode position
  let (i, q) ← c.operands opcode p
  return (i, ⟨q.1, by have := p.2; have := q.2; omega⟩)

/-- Reads the instructions from a position on; `done` are those before it,
latest first. -/
def instructionsFrom (c : Code) (done : List (Nat × Instruction)) (position : Nat) :
    Except Failure (List (Nat × Instruction)) :=
  if c.atEnd position then return done.reverse
  else do
    let (i, p) ← c.instruction position
    c.instructionsFrom ((position, i) :: done) p
termination_by c.size - position
decreasing_by have := p.2; omega

/-- Reads a whole stream as instructions with their addresses. -/
def instructions (c : Code) : Except Failure (List (Nat × Instruction)) :=
  c.instructionsFrom [] 0

end Code

end ScriptMachine
