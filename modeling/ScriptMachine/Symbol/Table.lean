/-
  ScriptMachine.Symbol.Table

  The symbol table: one live symbol per name.  Setting a name again replaces its
  symbol, except that the reserved words always stand for their commands.
-/

import ScriptMachine.Symbol.Basic
import Std.Data.TreeMap

namespace ScriptMachine

/-- The symbols by name. -/
structure Symbols where
  map : Std.TreeMap String Symbol

namespace Symbols

/-- The table of the reserved words. -/
def initial : Symbols :=
  ⟨Word.all.foldl (fun map w => map.insert w.spelling (.command w)) ∅⟩

/-- Symbol of a name. -/
def get? (t : Symbols) (name : String) : Option Symbol :=
  t.map[name]?

/-- The name has a symbol. -/
def contains (t : Symbols) (name : String) : Bool :=
  t.map.contains name

/-- Number of symbols. -/
def size (t : Symbols) : Nat :=
  t.map.size

/-- The name is a reserved word. -/
def isReserved (name : String) : Bool :=
  (Word.ofSpelling? name).isSome

/-- Replaces the symbol of a name without looking at the name. -/
def insert (t : Symbols) (name : String) (s : Symbol) : Symbols :=
  ⟨t.map.insert name s⟩

/-- Sets the symbol of a name that is neither empty nor reserved. -/
def set (t : Symbols) (name : String) (s : Symbol) : Except Error Symbols :=
  if name = "" then .error (.of .missingName)
  else if isReserved name then .error (.of (.reserved name))
  else .ok (t.insert name s)

/-- Copies the symbol of `existing` to `name`. -/
def copy (t : Symbols) (name existing : String) : Except Error Symbols :=
  match t.get? existing with
  | some s => t.set name s
  | none => .error (.of (.undefined existing))

/-! ## Small facts -/

@[simp] theorem get?_insert (t : Symbols) (name other : String) (s : Symbol) :
    (t.insert name s).get? other = if name = other then some s else t.get? other := by
  simp [get?, insert, Std.TreeMap.getElem?_insert]

theorem size_le_size_insert (t : Symbols) (name : String) (s : Symbol) :
    t.size ≤ (t.insert name s).size :=
  Std.TreeMap.size_le_size_insert

theorem set_eq_ok_iff {t u : Symbols} {name : String} {s : Symbol} :
    t.set name s = .ok u ↔ name ≠ "" ∧ isReserved name = false ∧ u = t.insert name s := by
  unfold set
  by_cases hempty : name = ""
  · simp [hempty]
  · by_cases hres : isReserved name = true
    · simp [hempty, hres]
    · rw [if_neg hempty, if_neg hres]
      constructor
      · intro h
        exact ⟨hempty, by simpa using hres, (Except.ok.inj h).symm⟩
      · rintro ⟨_, _, rfl⟩
        rfl

end Symbols

end ScriptMachine
