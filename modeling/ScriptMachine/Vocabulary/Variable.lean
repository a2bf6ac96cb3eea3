/-
  ScriptMachine.Vocabulary.Variable

  The variables with a meaning of their own.
-/

namespace ScriptMachine

/-- Name of the variable that stands for an absent argument; every store starts
with it. -/
def nullName : String := "NULL"

/-- Name of the variable that holds the value under test inside a `choose`. -/
def caseName : String := "$case"

end ScriptMachine
