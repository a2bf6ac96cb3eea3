/-
  ScriptMachine.Machine.Evaluation

  Evaluation of expressions straight from the instruction stream.  Operands are
  valued while they are read, so a call happens before whatever follows it is
  decoded.  In a scan calls are only checked, and every expression counts as the
  integer 0.
-/

import ScriptMachine.Machine.Host
import ScriptMachine.Stream.Reading
import ScriptMachine.Value.Reduction

namespace ScriptMachine

/-- Running a program, or walking over it without effect. -/
inductive Mode where
  | run
  | scan
  deriving DecidableEq, Repr

/-- An evaluation: it may fail at a position, and works on the variables and the
state of the host. -/
abbrev Eval (σ : Type) := EStateM Failure (Store × σ)

namespace Eval

variable {σ α : Type}

/-- A read of the stream. -/
def ofRead (x : Except Failure α) : Eval σ α := fun w =>
  match x with
  | .ok a => .ok a w
  | .error f => .error f w

/-- A result, or an error at a position. -/
def ofExcept (position : Nat) (x : Except Error α) : Eval σ α := fun w =>
  match x with
  | .ok a => .ok a w
  | .error e => .error ⟨e, position⟩ w

/-- Value of a variable. -/
def fetch (name : String) : Eval σ Value := fun w =>
  .ok (w.1.fetch name) w

/-- The error of a call: whatever the host reports counts as a failed function. -/
def callError (e : Error) : Error :=
  if e.kind = .functionFailed then e else .of (.callFailed e.render)

/-- Passes a call to the host; `position` lies behind its arguments. -/
def invoke (host : Host σ) (mode : Mode) (code : UInt16) (args : List Value) (position : Nat) :
    Eval σ Value := fun (store, s) =>
  match mode with
  | .run =>
    match host.call code args (store, s) with
    | .ok v w => .ok v w
    | .error e w => .error ⟨callError e, position⟩ w
  | .scan =>
    match host.check code args s with
    | .ok v s => .ok v (store, s)
    | .error e s => .error ⟨callError e, position⟩ (store, s)

/-- The argument as its parameter type wants it. -/
def argument (p : Param) (v : Value) : Except Error Value :=
  match p with
  | .str => v.coerce .str
  | .num => v.coerce .int
  | .float => v.coerce .single
  | _ => .ok v

/-- The value of an expression from its operands and operators. -/
def settle (mode : Mode) (operands : List Value) (operators : List Operator) :
    Except Error Value :=
  match mode with
  | .run => Value.reduce operands operators
  | .scan => .ok default

mutual

/-- Values the expression at a position. -/
def expression (host : Host σ) (mode : Mode) (c : Code) (position : Nat) :
    Eval σ (Value × c.Past position) := do
  let (operands, operators, p) ← chain host mode c position
  let v ← ofExcept p (settle mode operands operators)
  return (v, p)
termination_by (c.size - position, 2)
decreasing_by exact Prod.Lex.right _ (by omega)

/-- Values the operands of an expression up to its closing operator. -/
def chain (host : Host σ) (mode : Mode) (c : Code) (position : Nat) :
    Eval σ (List Value × List Operator × c.Past position) := do
  let (v, p) ← operand host mode c position
  let (b, q) ← ofRead (c.byte p)
  match Operator.ofByte? b with
  | none => throw ⟨(Error.of (.unknownOperator b)).atAddress p, q⟩
  | some .close => return ([v], [], p.trans q)
  | some op =>
    let (operands, operators, r) ← chain host mode c q
    return (v :: operands, op :: operators, p.trans (q.trans r))
termination_by (c.size - position, 1)
decreasing_by
  · exact Prod.Lex.right _ (by omega)
  · have := p.2; have := q.2; exact Prod.Lex.left _ _ (by omega)

/-- Values one operand. -/
def operand (host : Host σ) (mode : Mode) (c : Code) (position : Nat) :
    Eval σ (Value × c.Past position) := do
  let (tag, p) ← ofRead (c.tag position)
  match tag with
  | .str =>
    let (s, q) ← ofRead (c.text p)
    return (.str s, p.trans q)
  | .num =>
    let (n, q) ← ofRead (c.number p)
    return (.int n, p.trans q)
  | .var =>
    let (name, q) ← ofRead (c.text p)
    return (← fetch name, p.trans q)
  | .call =>
    let (opcode, q) ← ofRead (c.opcode p)
    if opcode = .func then
      let (v, r) ← call host mode c q
      return (v, p.trans (q.trans r))
    else ofRead (Code.fail (.callTo opcode) position q)
  | .code => ofRead (Code.fail .codeInExpression position p)
termination_by (c.size - position, 0)
decreasing_by have := p.2; have := q.2; exact Prod.Lex.left _ _ (by omega)

/-- Values the arguments of a call and makes it. -/
def call (host : Host σ) (mode : Mode) (c : Code) (position : Nat) :
    Eval σ (Value × c.Past position) := do
  let (code, p) ← ofRead (c.word position)
  let (args, q) ← arguments host mode c p
  let v ← invoke host mode code args q
  return (v, p.trans q)
termination_by (c.size - position, 0)
decreasing_by have := p.2; exact Prod.Lex.left _ _ (by omega)

/-- Values the arguments of a call up to their end mark. -/
def arguments (host : Host σ) (mode : Mode) (c : Code) (position : Nat) :
    Eval σ (List Value × c.Past position) := do
  let (b, p) ← ofRead (c.byte position)
  if b = paramsEnd then return ([], p)
  else
    match Param.ofByte? b with
    | none => throw ⟨(Error.of (.unknownParam b)).atAddress position, p⟩
    | some param =>
      let (v, q) ← expression host mode c p
      let v ← ofExcept q.1 (argument param v)
      let (args, r) ← arguments host mode c q
      return (v :: args, p.trans (q.trans r))
termination_by (c.size - position, 0)
decreasing_by
  · have := p.2; exact Prod.Lex.left _ _ (by omega)
  · have := p.2; have := q.2; exact Prod.Lex.left _ _ (by omega)

end

end Eval

end ScriptMachine
