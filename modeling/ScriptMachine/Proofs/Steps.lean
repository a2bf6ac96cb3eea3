/-
  ScriptMachine.Proofs.Steps

  When a step of the compiler succeeds, and what it leaves.  One equivalence for
  each kind of step; proofs about commands take a command apart with them and
  never look into the monad again.
-/

import ScriptMachine.Compiler.Script
import ScriptMachine.Proofs.Scopes

namespace ScriptMachine

namespace Compile

variable {α β : Type} {c c' : Compiler}

/-! ## Sequences and tests -/

theorem bind_eq_ok_iff {x : Compile α} {f : α → Compile β} {b : β} :
    (x >>= f) c = .ok b c' ↔ ∃ a d, x c = .ok a d ∧ f a d = .ok b c' := by
  simp only [bind, EStateM.bind]
  cases h : x c with
  | ok a d =>
    simp only [EStateM.Result.ok.injEq]
    constructor
    · intro hf
      exact ⟨a, d, ⟨rfl, rfl⟩, hf⟩
    · rintro ⟨_, _, ⟨rfl, rfl⟩, hf⟩
      exact hf
  | error e d => simp

theorem bind_of_eq_ok {x : Compile α} {a : α} (h : x c = .ok a c') (f : α → Compile β) :
    (x >>= f) c = f a c' := by
  simp only [bind, EStateM.bind, h]

theorem get_bind (f : Compiler → Compile α) : (get >>= f : Compile α) c = f c c :=
  rfl

theorem pure_eq_ok_iff {a b : α} : (pure a : Compile α) c = .ok b c' ↔ b = a ∧ c' = c := by
  simp only [pure, EStateM.pure, EStateM.Result.ok.injEq, eq_comm]

theorem get_eq_ok_iff {a : Compiler} : (get : Compile Compiler) c = .ok a c' ↔ a = c ∧ c' = c := by
  show EStateM.Result.ok c c = _ ↔ _
  simp only [EStateM.Result.ok.injEq, eq_comm]

theorem modify_eq_ok_iff {f : Compiler → Compiler} {u : Unit} :
    (modify f : Compile Unit) c = .ok u c' ↔ c' = f c := by
  show EStateM.Result.ok () (f c) = _ ↔ _
  simp only [EStateM.Result.ok.injEq, true_and, eq_comm]

theorem throw_ne_ok {e : Error} {a : α} : (throw e : Compile α) c ≠ .ok a c' := by
  intro h
  cases h

theorem ofExcept_eq_ok_iff {x : Except Error α} {a : α} :
    ofExcept x c = .ok a c' ↔ x = .ok a ∧ c' = c := by
  unfold ofExcept
  cases x <;> simp [eq_comm]

theorem ask_eq_ok_iff {f : Compiler → Except Error α} {a : α} :
    ask f c = .ok a c' ↔ f c = .ok a ∧ c' = c := by
  unfold ask
  cases f c <;> simp [eq_comm]

/-! ## Steps on parts of the state -/

theorem emit_eq_ok_iff {f : Context → Draft α} {a : α} :
    emit f c = .ok a c' ↔ ∃ items, f c.context = ⟨items, .ok a⟩ ∧
      c' = { c with program := c.program.writeAll items } := by
  unfold emit
  obtain ⟨items, outcome⟩ := f c.context
  cases outcome with
  | error e => simp
  | ok b =>
    simp only [EStateM.Result.ok.injEq, Draft.mk.injEq, Except.ok.injEq]
    constructor
    · rintro ⟨rfl, rfl⟩
      exact ⟨items, ⟨rfl, rfl⟩, rfl⟩
    · rintro ⟨_, ⟨rfl, rfl⟩, rfl⟩
      exact ⟨rfl, rfl⟩

theorem comment_eq_ok_iff {s : String} {u : Unit} :
    comment s c = .ok u c' ↔ c' = { c with program := c.program.comment s } := by
  unfold comment
  simp only [EStateM.Result.ok.injEq, true_and, eq_comm]

theorem onSymbols_eq_ok_iff {f : Symbols → Except Error Symbols} {u : Unit} :
    onSymbols f c = .ok u c' ↔ ∃ symbols, f c.symbols = .ok symbols ∧ c' = { c with symbols } := by
  unfold onSymbols
  cases f c.symbols <;> simp [eq_comm]

theorem onBlocks_eq_ok_iff {word : Word} {f : Blocks → Nat → Except Error (Label × Blocks)}
    {u : Unit} :
    onBlocks word f c = .ok u c' ↔ ∃ label blocks,
      f c.blocks c.program.position = .ok (label, blocks) ∧
      c' = { c with blocks, program := c.program.comment (word.spelling ++ " " ++ label.text) } := by
  unfold onBlocks
  cases f c.blocks c.program.position with
  | error e => simp
  | ok r =>
    obtain ⟨label, blocks⟩ := r
    simp only [EStateM.Result.ok.injEq, true_and, Except.ok.injEq, Prod.mk.injEq]
    constructor
    · rintro rfl
      exact ⟨label, blocks, ⟨rfl, rfl⟩, rfl⟩
    · rintro ⟨_, _, ⟨rfl, rfl⟩, rfl⟩
      rfl

/-- A step on the blocks that fails changes nothing. -/
theorem onBlocks_eq_error {word : Word} {f : Blocks → Nat → Except Error (Label × Blocks)}
    {c d : Compiler} {e : Error} (h : onBlocks word f c = .error e d) : d = c := by
  unfold onBlocks at h
  split at h <;> cases h
  rfl

theorem onStack_eq_ok_iff {stack : Compiler → Stack β} {put : Compiler → Stack β → Compiler}
    {x : EStateM Error (Stack β) α} {a : α} :
    onStack stack put x c = .ok a c' ↔ ∃ s, x (stack c) = .ok a s ∧ c' = put c s := by
  unfold onStack
  cases x (stack c) <;> simp [eq_comm]

theorem onStructures_eq_ok_iff {x : EStateM Error (Stack Word) α} {a : α} :
    onStructures x c = .ok a c' ↔ ∃ structures, x c.structures = .ok a structures ∧
      c' = { c with structures } :=
  onStack_eq_ok_iff

theorem onSwitchEnds_eq_ok_iff {x : EStateM Error (Stack Label) α} {a : α} :
    onSwitchEnds x c = .ok a c' ↔ ∃ switchEnds, x c.switchEnds = .ok a switchEnds ∧
      c' = { c with switchEnds } :=
  onStack_eq_ok_iff

theorem onWhileEnds_eq_ok_iff {x : EStateM Error (Stack (Option Label)) α} {a : α} :
    onWhileEnds x c = .ok a c' ↔ ∃ whileEnds, x c.whileEnds = .ok a whileEnds ∧
      c' = { c with whileEnds } :=
  onStack_eq_ok_iff

theorem jumpTo_eq_ok_iff {label : Label} {u : Unit} :
    jumpTo label c = .ok u c' ↔ c' = { c with
      fixups := c.fixups.push ⟨c.program.position, label⟩
      program := c.program.write (.num (Int64.ofNat label.packed)) } := by
  unfold jumpTo
  simp only [EStateM.Result.ok.injEq, true_and, eq_comm]

/-! ## Diagnostics -/

theorem reporting_eq_ok_iff {f : Error → Error} {x : Compile α} {a : α} :
    reporting f x c = .ok a c' ↔ x c = .ok a c' := by
  unfold reporting
  cases x c <;> simp

theorem onLine_eq_ok_iff {file : String} {number : Nat} {text : List Char} {x : Compile α} {a : α} :
    onLine file number text x c = .ok a c' ↔ x c = .ok a c' :=
  reporting_eq_ok_iff

theorem inFragment_eq_ok_iff {text : List Char} {x : Compile α} {a : α} :
    inFragment text x c = .ok a c' ↔ x c = .ok a c' := by
  unfold inFragment
  cases x c <;> simp

/-! ## The end of a program -/

theorem resolve_eq_ok_iff {u : Unit} :
    resolve c = .ok u c' ↔ ∃ program, resolveFixups c.blocks c.fixups.toList c.program =
      .ok () program ∧ c' = { c with program, fixups := #[] } := by
  unfold resolve
  dsimp only
  split <;> simp_all [eq_comm]

/-- The program before its jumps are filled in, with the `stop` at its end. -/
def stopped (c : Compiler) : Program :=
  (c.program.comment "link").write (.code .stop)

/-- A program is finished when nothing is open and all jumps can be filled in. -/
theorem finish_eq_ok_iff {p : Program} :
    finish c = .ok p c' ↔ c.structures.top? = none ∧ ∃ q,
      resolveFixups c.blocks c.fixups.toList (stopped c) = .ok () q ∧
      p = q.comment q.code.summary ∧ c' = { c with program := p, fixups := #[] } := by
  unfold finish
  simp only [bind_eq_ok_iff, get_eq_ok_iff, reporting_eq_ok_iff, ask_eq_ok_iff,
    comment_eq_ok_iff, emit_eq_ok_iff, resolve_eq_ok_iff, modify_eq_ok_iff, pure_eq_ok_iff]
  constructor
  · rintro ⟨_, _, ⟨rfl, rfl⟩, _, _, ⟨_, _, ⟨hopen, rfl⟩, _, _, rfl, _, _, ⟨items, hitems, rfl⟩,
      q, hq, rfl⟩, _, _, rfl, _, _, ⟨rfl, rfl⟩, rfl, rfl⟩
    obtain ⟨rfl, _⟩ := Draft.mk.inj hitems
    refine ⟨?_, q, hq, rfl, rfl⟩
    split at hopen
    · cases hopen
    · assumption
  · rintro ⟨hopen, q, hq, rfl, rfl⟩
    refine ⟨_, _, ⟨rfl, rfl⟩, (), _, ⟨(), _, ⟨?_, rfl⟩, (), _, rfl, (), _, ⟨_, rfl, rfl⟩, q, hq, rfl⟩,
      (), _, rfl, _, _, ⟨rfl, rfl⟩, rfl, rfl⟩
    rw [hopen]

end Compile

end ScriptMachine
