/-
  ScriptMachine.Value.Reduction

  The value of a flat expression.  First every `*` and `/` is worked out and its
  result takes the place of the right operand, with a zero of its kind and a `+`
  left in front of it; then the whole is reduced strictly from left to right.
-/

import ScriptMachine.Value.Arithmetic

namespace ScriptMachine.Value

/-- Works out the products of an expression that starts with `first`. -/
def settleProducts (first : Value) :
    List (Operator × Value) → Except Error (Value × List (Operator × Value))
  | [] => return (first, [])
  | (op, v) :: rest =>
    if op.isMultiplicative then do
      let product ← apply op first v
      let (next, rest) ← settleProducts product rest
      return (product.kind.zero, (.add, next) :: rest)
    else do
      let (next, rest) ← settleProducts v rest
      return (first, (op, next) :: rest)

/-- Reduces an expression from left to right. -/
def reduceLeft (first : Value) (rest : List (Operator × Value)) : Except Error Value :=
  rest.foldlM (fun acc (op, v) => apply op acc v) first

/-- Value of the expression with these operands and, between them, these
operators. -/
def reduce (operands : List Value) (operators : List Operator) : Except Error Value :=
  match operands with
  | first :: rest =>
    if rest.length = operators.length then do
      let (first, rest) ← settleProducts first (operators.zip rest)
      reduceLeft first rest
    else throw (.of .malformedExpression)
  | [] => throw (.of .malformedExpression)

end ScriptMachine.Value
