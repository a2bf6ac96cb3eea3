/-
  ScriptMachine.Machine.Store

  Variable memory.  A variable that was never stored reads as the integer 0; the
  variable `NULL` is present from the start.
-/

import ScriptMachine.Value.Basic
import ScriptMachine.Vocabulary.Variable
import Std.Data.TreeMap

namespace ScriptMachine

/-- The variables by name. -/
structure Store where
  vars : Std.TreeMap String Value

namespace Store

/-- The store that holds `NULL` alone. -/
def initial : Store :=
  ⟨(∅ : Std.TreeMap String Value).insert nullName default⟩

/-- Number of variables. -/
def size (s : Store) : Nat :=
  s.vars.size

/-- Value of a variable, if it is there. -/
def get? (s : Store) (name : String) : Option Value :=
  s.vars[name]?

/-- Value of a variable; a missing one reads as the integer 0. -/
def fetch (s : Store) (name : String) : Value :=
  (s.get? name).getD default

/-- The variable is there. -/
def contains (s : Store) (name : String) : Bool :=
  s.vars.contains name

/-- The variables in the order of their names. -/
def toList (s : Store) : List (String × Value) :=
  s.vars.toList

/-- Stores a value.  A store of more than 65535 variables takes no more values,
not even for the variables it has. -/
def store (s : Store) (name : String) (v : Value) : Except Error Store :=
  if 65535 < s.size then .error (.of .tooManyVariables)
  else .ok ⟨s.vars.insert name v⟩

/-! ## Small facts -/

theorem get?_store {s t : Store} {name other : String} {v : Value} (h : s.store name v = .ok t) :
    t.get? other = if name = other then some v else s.get? other := by
  unfold store at h
  split at h
  · cases h
  · obtain rfl := Except.ok.inj h
    simp [get?, Std.TreeMap.getElem?_insert]

theorem contains_eq (s : Store) (name : String) : s.contains name = (s.get? name).isSome :=
  Std.TreeMap.contains_eq_isSome_getElem?

end Store

end ScriptMachine
