/-
  ScriptMachine.Symbol.Basic

  Symbols: what the names of a script stand for.
-/

import ScriptMachine.Cause

namespace ScriptMachine

/-- A named constant. -/
inductive Constant where
  | number (n : Int64)
  | text (s : String)
  deriving DecidableEq

/-- Text of a constant as a script writes it. -/
def Constant.shown : Constant → String
  | number n => Text.decimal n.toInt
  | text s => "\"" ++ s ++ "\""

/-- What a name stands for. -/
inductive Symbol where
  | command (word : Word)
  | function (code : UInt16) (params : List Param)
  | var
  | constant (value : Constant)
  deriving DecidableEq

/-- Parameter types of a shape, one per letter. -/
def Param.shape (cs : List Char) : Except Error (List Param) :=
  cs.mapM fun c =>
    match ofLetter? c with
    | some p => .ok p
    | none => .error (.of (.notParameterType c))

end ScriptMachine
