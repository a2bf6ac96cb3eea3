/-
  ScriptMachine.Proofs.Choices.Places

  Where the compiler stands in a choice.  Directly in a choice and outside the body of a
  case, no call and only three words are permitted (`Compiler.Permits`).  Only five words open
  or close a `choose` or the body of a case; every other command stays in its place
  (`Compile.samePlace_command`).
-/

import ScriptMachine.Proofs.Naming

namespace ScriptMachine

/-! ## Places where calls are permitted -/

namespace Compiler

/-- A call is permitted here: in the body of a case, or not directly inside a `choose`. -/
def Permits (c : Compiler) : Prop :=
  c.inCase = true ∨ c.structures.top? ≠ some .choose

variable {c : Compiler}

theorem checkSwitch_of_permits (h : c.Permits) (word : Option Word) :
    c.checkSwitch word = .ok () :=
  if_pos h

/-- The words that are legal outside the body of a case. -/
def clauseWords : List Word :=
  [.caseOf, .default, .endChoose]

theorem checkSwitch_of_not_permits (h : ¬ c.Permits) {word : Option Word}
    (hword : ∀ w ∈ word, w ∉ clauseWords) :
    ∃ e, c.checkSwitch word = .error e ∧ e.kind = .illegalInChoose := by
  have hplace : ¬ (c.inCase = true ∨ c.structures.top? ≠ some .choose) := h
  unfold checkSwitch
  rw [if_neg hplace]
  split
  · exact absurd (by decide) (hword _ rfl)
  · exact absurd (by decide) (hword _ rfl)
  · exact absurd (by decide) (hword _ rfl)
  · exact ⟨_, rfl, rfl⟩
  · exact ⟨_, rfl, rfl⟩

end Compiler

namespace Compile

variable {α : Type}

/-! ## Steps that stay where they are -/

/-- The same structures are open, and the same body of a case. -/
structure SamePlace (c c' : Compiler) : Prop where
  structures : c'.structures = c.structures
  switchDepth : c'.switchDepth = c.switchDepth
  inCase : c'.inCase = c.inCase

instance : Std.Refl SamePlace :=
  ⟨fun _ => ⟨rfl, rfl, rfl⟩⟩

instance : IsTrans Compiler SamePlace :=
  ⟨fun _ _ _ h k => ⟨k.structures.trans h.structures, k.switchDepth.trans h.switchDepth,
    k.inCase.trans h.inCase⟩⟩

theorem SamePlace.permits {c c' : Compiler} (h : SamePlace c c') : c'.Permits ↔ c.Permits := by
  rw [Compiler.Permits, Compiler.Permits, h.inCase, h.structures]

instance : Overlooks SamePlace :=
  ⟨fun _ _ _ _ => ⟨rfl, rfl, rfl⟩, fun _ _ _ => ⟨rfl, rfl, rfl⟩, fun _ _ _ => ⟨rfl, rfl, rfl⟩⟩

theorem samePlace_onSymbols (f : Symbols → Except Error Symbols) :
    Keeps SamePlace (onSymbols f) := by
  intro c a c' h
  obtain ⟨_, _, rfl⟩ := onSymbols_eq_ok_iff.1 h
  exact ⟨rfl, rfl, rfl⟩

theorem samePlace_constantValue (s : Scanner) : Keeps SamePlace (constantValue s) :=
  keeps_constantValue (fun _ _ => samePlace_onSymbols _) s

theorem samePlace_declareFunction (s : Scanner) : Keeps SamePlace (declareFunction s) := by
  refine (keeps_required _ _).bind fun name => (keeps_required _ _).bind fun shape =>
    (keeps_ofExcept _).bind fun params => (samePlace_constantValue _).bind fun constant =>
    (keeps_ofExcept _).bind fun code => ?_
  have hset : ∀ t : Scanner, Keeps SamePlace (do
      ofExcept t.expectEnd
      comment ("declare " ++ name.1 ++ " " ++ shape.1 ++ " " ++ toString code.toNat)
      onSymbols (·.set name.1 (.function code params))) := fun t =>
    (keeps_ofExcept _).bind fun _ => (keeps_comment _).bind fun _ => samePlace_onSymbols _
  have hmark : Keeps SamePlace (modify fun c : Compiler =>
      { c with blockChecked := c.blockChecked.insert code }) :=
    keeps_modify fun _ => ⟨rfl, rfl, rfl⟩
  dsimp only
  split
  · split
    · exact hmark.bind fun _ => (keeps_pure _).bind hset
    · exact (keeps_throw _).bind hset
  · exact (keeps_pure _).bind hset

theorem samePlace_defineConstant (s : Scanner) : Keeps SamePlace (defineConstant s) :=
  keeps_defineConstant samePlace_constantValue (fun _ _ => (keeps_ofExcept _).bind fun _ =>
    (keeps_comment _).bind fun _ => samePlace_onSymbols _) s

/-- The words whose commands open or close a `choose` or the body of a case. -/
def casing : List Word :=
  [.choose, .caseOf, .default, .breakOut, .endChoose]

theorem samePlace_command {word : Word} (hword : word ∉ casing) (s : Scanner) :
    Keeps SamePlace (command word s) := by
  cases word with
  | choose | caseOf | default | breakOut | endChoose => exact absurd (by decide) hword
  | var =>
    exact (keeps_required _ _).bind fun _ => (samePlace_onSymbols _).bind fun _ =>
      (keeps_comment _).bind fun _ => keeps_emit _
  | declare => exact samePlace_declareFunction s
  | define => exact samePlace_defineConstant s
  | defineCommand =>
    exact (keeps_required _ _).bind fun _ => (keeps_required _ _).bind fun _ =>
      (keeps_ofExcept _).bind fun _ => (keeps_comment _).bind fun _ => samePlace_onSymbols _
  | _ => exact keeps_branching (by decide) s

theorem samePlace_head? (stop line : List Char) : Keeps SamePlace (head? stop line) := by
  intro c r c' h
  rw [head?_eq_ok h]
  exact Std.Refl.refl c

end Compile

end ScriptMachine
