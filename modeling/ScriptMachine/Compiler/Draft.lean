/-
  ScriptMachine.Compiler.Draft

  Items written by a part of the compiler, together with how it ended.  A draft
  that fails keeps the items written before the failure, because the program
  keeps them too.
-/

import ScriptMachine.Stream.Item

namespace ScriptMachine

/-- Items in the order of writing, and a result or an error. -/
structure Draft (α : Type) where
  items : List Item
  outcome : Except Error α

namespace Draft

variable {α β : Type}

/-- Writes one item. -/
def put (i : Item) : Draft Unit :=
  ⟨[i], i.check⟩

/-- Fails without writing. -/
def fail (e : Error) : Draft α :=
  ⟨[], .error e⟩

/-- A result without writing. -/
def ofExcept (x : Except Error α) : Draft α :=
  ⟨[], x⟩

/-- Goes on with the result of a draft. -/
protected def bind (d : Draft α) (f : α → Draft β) : Draft β :=
  match d.outcome with
  | .ok a =>
    let e := f a
    ⟨d.items ++ e.items, e.outcome⟩
  | .error e => ⟨d.items, .error e⟩

/-- Changes the result of a draft. -/
protected def map (f : α → β) (d : Draft α) : Draft β :=
  ⟨d.items, d.outcome.map f⟩

instance : Monad Draft where
  pure a := ⟨[], .ok a⟩
  bind := Draft.bind
  map := Draft.map

/-! ## Small facts -/

@[simp] theorem items_pure (a : α) : (pure a : Draft α).items = [] := rfl

@[simp] theorem outcome_pure (a : α) : (pure a : Draft α).outcome = .ok a := rfl

@[simp] theorem items_map (f : α → β) (d : Draft α) : (f <$> d).items = d.items := rfl

@[simp] theorem outcome_map (f : α → β) (d : Draft α) :
    (f <$> d).outcome = d.outcome.map f := rfl

theorem bind_of_ok {d : Draft α} {a : α} (h : d.outcome = .ok a) (f : α → Draft β) :
    d >>= f = ⟨d.items ++ (f a).items, (f a).outcome⟩ := by
  show d.bind f = _
  simp [Draft.bind, h]

theorem bind_of_error {d : Draft α} {e : Error} (h : d.outcome = .error e) (f : α → Draft β) :
    d >>= f = ⟨d.items, .error e⟩ := by
  show d.bind f = _
  simp [Draft.bind, h]

end Draft

end ScriptMachine
