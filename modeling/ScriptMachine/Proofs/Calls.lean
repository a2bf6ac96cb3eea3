/-
  ScriptMachine.Proofs.Calls

  The calls in a tree, and the shapes they fit.  A function is known by its number
  and its shape; arguments fit a shape when going through the shape from left to
  right gives exactly them, each with the parameter type that asked for it.
-/

import ScriptMachine.Stream.Instruction
import ScriptMachine.Vocabulary.Variable

namespace ScriptMachine

-- ============================================================================
-- Calls of a tree
-- ============================================================================

mutual

/-- The calls in an operand, outer before inner. -/
def Operand.calls : Operand → List (UInt16 × Args)
  | .call code args => (code, args) :: args.calls
  | _ => []

/-- The calls in arguments. -/
def Args.calls : Args → List (UInt16 × Args)
  | .nil => []
  | .cons _ e rest => e.calls ++ rest.calls

/-- The calls in an expression. -/
def Expression.calls : Expression → List (UInt16 × Args)
  | .last o => o.calls
  | .more o _ rest => o.calls ++ rest.calls

end

/-- The calls in an instruction. -/
def Instruction.calls : Instruction → List (UInt16 × Args)
  | assign _ _ e | unlessGoto e _ | unlessCaseGoto e _ => e.calls
  | func code args => (code, args) :: args.calls
  | _ => []

-- ============================================================================
-- Shapes
-- ============================================================================

/-- The arguments that a shape asks for.  Nothing stands for a skipped word, and
nothing behind the end of the line; an optional parameter is asked for until the null
variable stands for it. -/
inductive Args.Fits : List Param → Args → Prop where
  | done : Fits [] .nil
  | stop (rest : List Param) : Fits (.stop :: rest) .nil
  | skip {rest : List Param} {as : Args} (h : Fits rest as) : Fits (.skip :: rest) as
  | required {p : Param} {rest : List Param} {as : Args} (e : Expression)
      (hp : p ≠ .stop ∧ p ≠ .skip ∧ p ≠ .optional) (h : Fits rest as) :
      Fits (p :: rest) (.cons p e as)
  | another {rest : List Param} {as : Args} (e : Expression) (h : Fits (.optional :: rest) as) :
      Fits (.optional :: rest) (.cons .optional e as)
  | null (rest : List Param) :
      Fits (.optional :: rest) (.cons .optional (.last (.var nullName)) .nil)

/-- A set of functions, by number and shape. -/
abbrev Signatures : Type := UInt16 → List Param → Prop

/-- The call is one of a function of the set, with the arguments that its shape asks
for. -/
def Signatures.Allow (D : Signatures) (call : UInt16 × Args) : Prop :=
  ∃ params, D call.1 params ∧ call.2.Fits params

end ScriptMachine
