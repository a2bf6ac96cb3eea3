/-
  ScriptMachine.Proofs.Structured.Refinement

  Structured scripts are compiled correctly.  A script without choices that keeps
  the limits of the compiler is accepted and does what it means
  (`Block.compiles_and_runs`); a script with choices does what it means whenever it
  is accepted (`Block.choices_run`).
-/

import ScriptMachine.Proofs.Structured.Acceptance

namespace ScriptMachine.Structured

open Compile

/-! ## Scripts without choices -/

/-- With fewer than 65535 variables, these and `NULL` fit the memory. -/
theorem fits_of_length_lt {names : List String} (h : names.dedup.length < 65535) :
    Fits (nullName :: names) .initial := by
  refine fits_initial List.mem_cons_self ?_
  by_cases hmem : nullName ∈ names
  · rw [List.dedup_cons_of_mem hmem]
    omega
  · rw [List.dedup_cons_of_notMem hmem, List.length_cons]
    omega

/-- Structured control flow is compiled correctly.  A script without choices, with
every variable declared above its use and every exit in a loop, that keeps the
limits (255 steps for a block, 0xFFFFFF blocks, 65535 structures inside each other,
names of less than 65535 bytes, fewer than 65535 variables) is accepted; and run
from address 0 its program halts with the variables that the script ends with, and
fails with the kind of error that the script fails with, and in no other case. -/
theorem Block.compiles_and_runs (b : Block) (hb : b.Acceptable [] false)
    (hblocks : b.blocks ≤ 0xFFFFFF) (hnesting : b.nesting ≤ 65535)
    (hvariables : b.variables.dedup.length < 65535) (file : String) :
    ∃ p, compile file b.source = .ok p ∧ (p.code.size < 2 ^ 63 →
      ∀ {σ : Type} (host : Host σ) (m : Machine) (h : σ),
        Machine.start p.code 0 false m = .ok () (started m p.code) ∧
          RunsAs host (started m p.code, h) (b.Ends Put.unlimited)) := by
  obtain ⟨p, hp⟩ := Block.compiles hb hblocks hnesting file
  refine ⟨p, hp, ?_⟩
  intro hsize σ host m h
  exact Block.runs hp hsize hb.exits (faithful_unlimited _)
    (fun y hy => List.mem_cons_of_mem _ hy) (fits_of_length_lt hvariables) host m h

/-- The name of one letter. -/
def Name.ofLetter (c : Char) (hc : isLetter c = true)
    (hr : Symbols.isReserved (String.ofList [c]) = false) : Name where
  first := c
  rest := []
  letter := hc
  alphanumeric := fun _ h => (List.not_mem_nil h).elim
  unreserved := hr

/-- The name `a`. -/
def nameA : Name :=
  .ofLetter 'a' (by decide) (by decide +kernel)

/-- The digit `1`. -/
def one : Expr :=
  .last (.number ⟨['1'], by decide, by decide⟩)

/-- A loop that counts `a` down to zero and leaves by an exit. -/
def countdown : Block :=
  .cons (.declare nameA (some (.store .mov one)))
    (.cons (.loop one
      (.cons (.branch (.last (.var nameA)) (.cons (.assign nameA .decrement) .nil)
        (.otherwise (.cons .exit .nil))) .nil)) .nil)

theorem countdown_compiles_and_runs :
    ∃ p, compile "" countdown.source = .ok p ∧ (p.code.size < 2 ^ 63 →
      ∀ {σ : Type} (host : Host σ) (m : Machine) (h : σ),
        Machine.start p.code 0 false m = .ok () (started m p.code) ∧
          RunsAs host (started m p.code, h) (countdown.Ends Put.unlimited)) :=
  Block.compiles_and_runs countdown
    ⟨by decide, by decide, by decide +kernel, by decide, by decide +kernel⟩ (by decide) (by decide)
    (by decide +kernel) ""

/-! ## Names that are too long -/

theorem not_isReserved_of_length {cs : List Char} (h : 9 < cs.length) :
    Symbols.isReserved (String.ofList cs) = false := by
  rw [Symbols.isReserved, Option.isSome_eq_false_iff, Option.isNone_iff_eq_none]
  cases hw : Word.ofSpelling? (String.ofList cs) with
  | none => rfl
  | some w =>
    have hspelling := congrArg (List.length ∘ String.toList) (Word.spelling_of_ofSpelling? hw)
    have hshort : w.spelling.toList.length ≤ 9 := by
      cases w <;> decide
    simp only [Function.comp_apply, String.toList_ofList] at hspelling
    omega

/-- A name of 65535 letters. -/
def longName : Name where
  first := 'a'
  rest := List.replicate 65534 'a'
  letter := by decide
  alphanumeric := by
    intro c hc
    rw [List.eq_of_mem_replicate hc]
    decide
  unreserved := not_isReserved_of_length (by rw [List.length_cons, List.length_replicate]; omega)

theorem utf8Length_replicate (n : Nat) (c : Char) :
    Text.utf8Length (List.replicate n c) = n * c.utf8Size := by
  induction n with
  | zero => rw [List.replicate_zero, Text.utf8Length_nil, Nat.zero_mul]
  | succ n ih => rw [List.replicate_succ, Text.utf8Length_cons, ih, Nat.succ_mul, Nat.add_comm]

theorem not_textFits_longName : Item.textFits longName.text = false := by
  have hsize : longName.text.utf8ByteSize = 65535 := by
    rw [← Text.utf8Length_toList, Name.text, String.toList_ofList]
    show Text.utf8Length (List.replicate 65535 'a') = _
    rw [utf8Length_replicate]
    rfl
  rw [Item.textFits, hsize]
  decide

/-- A script that declares the variable with the long name. -/
def longScript : Block :=
  .cons (.declare longName (some (.store .mov one))) .nil

/-- The length of a name is a limit of its own: the script keeps all others, and is
not accepted. -/
theorem longScript_rejected :
    longScript.choiceless = true ∧ longScript.scoped false = true ∧
      longScript.declared [] = true ∧ longScript.steps ≤ 255 ∧ longScript.blocks ≤ 0xFFFFFF ∧
      longScript.nesting ≤ 65535 ∧ longScript.variables.dedup.length < 65535 ∧
      ∀ p, compile "" longScript.source ≠ .ok p := by
  refine ⟨rfl, rfl, rfl, by decide, by decide, by decide, ?_, ?_⟩
  · have hone : longScript.variables = [longName.text] := rfl
    rw [hone, List.dedup_cons_of_notMem List.not_mem_nil]
    decide
  · intro p hp
    obtain ⟨c, _, htakes, _⟩ := compile_eq_ok_iff.1 hp
    rw [longScript.lines_source] at htakes
    obtain ⟨d, hline, _⟩ := takes_append_iff.1 htakes
    have h := (line_declareAssign_eq_ok_iff (usual_fresh "") _ _).1 (takes_singleton_iff.1 hline)
    rw [not_textFits_longName] at h
    cases h.2.1

/-! ## Scripts with choices -/

/-- Choices are compiled correctly.  An accepted script whose exits stay inside
their choices, run from address 0, halts with the variables that the script ends
with and fails with the kind of error that it fails with, and in no other case.
That holds of the memory of the machine, which takes no value once more than 65535
variables are there; and it holds of a memory of unlimited size as long as `NULL`
and the variables of the script, with the one under test among them where there is
a choice, are not more than 65535. -/
theorem Block.choices_run (b : Block) (hscoped : b.scoped false = true) (file : String)
    (p : Program) (hp : compile file b.source = .ok p) (hsize : p.code.size < 2 ^ 63) {σ : Type}
    (host : Host σ) (m : Machine) (h : σ) :
    Machine.start p.code 0 false m = .ok () (started m p.code) ∧
      RunsAs host (started m p.code, h) (b.Ends Store.store) ∧
      ((nullName :: b.variables).dedup.length ≤ 65535 →
        RunsAs host (started m p.code, h) (b.Ends Put.unlimited)) := by
  have hnames : ∀ y ∈ b.variables, y ∈ nullName :: b.variables :=
    fun y hy => List.mem_cons_of_mem _ hy
  obtain ⟨hstart, hruns⟩ := Block.runs hp hsize hscoped (faithful_store _) hnames trivial host m h
  refine ⟨hstart, hruns, ?_⟩
  intro hfits
  have hinv : Fits (nullName :: b.variables) .initial := fits_initial List.mem_cons_self hfits
  exact (Block.runs hp hsize hscoped (faithful_unlimited _) hnames hinv host m h).2

/-- A choice with one case, which is left by a break. -/
def choiceOfOne : Block :=
  .cons (.choose one (.case one (.cons .leave .nil) .nil)) .nil

theorem checkSwitch_clause (c : Compiler) {w : Word} (hw : w = .caseOf ∨ w = .endChoose) :
    c.checkSwitch (some w) = .ok () := by
  unfold Compiler.checkSwitch
  rcases hw with rfl | rfl <;> split <;> rfl

theorem takes_choiceOfOne : ∃ c, Takes (fresh "") choiceOfOne.lines c := by
  have hcheck : (fresh "").checkSwitch (some .choose) = .ok () := rfl
  obtain ⟨symbols, hchoose⟩ := line_choose_of_ifDepth (usual_fresh "") (e := one) hcheck rfl
    (by decide) (by decide) (by decide) trivial
  obtain ⟨hc₁, hb₁⟩ := choose_line (usual_fresh "") (consistent_fresh "") hchoose
  have hcase := (line_case_eq_ok_iff hc₁ one).2 ⟨checkSwitch_clause _ (.inl rfl),
    Stack.top?_push _ _, _, _, rfl, zero_ne_255, by decide, trivial, rfl⟩
  obtain ⟨hc₂, hb₂⟩ := case_line hc₁ hb₁ hcase
  have hbreak := (line_break_eq_ok_iff hc₂).2 ⟨if_pos (.inl rfl), _, Stack.top?_push _ _, rfl⟩
  obtain ⟨ps, hcont, _, _⟩ := compiled_leave hc₂ hb₂ hbreak
  have hend := (line_endChoose_eq_ok_iff hcont.usual).2 ⟨checkSwitch_clause _ (.inr rfl),
    Stack.top?_push _ _, _, _, _, rfl, by decide, Stack.top?_push _ _, Nat.succ_ne_zero 0, rfl⟩
  exact ⟨_, .cons hchoose (.cons hcase (.cons hbreak (.cons hend (.nil _))))⟩

theorem size_choiceOfOne {p : Program} (hp : compile "" choiceOfOne.source = .ok p) :
    p.code.size < 2 ^ 63 := by
  obtain ⟨finish, hat, _, hlen⟩ := Block.at_of_compile hp
  simp only [choiceOfOne, Block.At, Stmt.At, Clauses.At] at hat
  obtain ⟨_, ⟨_, q, r, t, hpush, hmov, ⟨u, n, ⟨hcase, _⟩, ⟨v, ⟨_, hjump, _⟩, hv⟩, ht⟩, hpop⟩,
    hfinish⟩ := hat
  -- five instructions, each with its length
  have hq : q = 0 + 11 := hpush.next
  have hr : r = q + 21 := hmov.next
  have hu : u = r + 21 := hcase.next
  have hv' : v = u + 11 := hjump.next
  have hw := hpop.next
  have hpopLength : (Instruction.pop caseName).bytes.length = 11 := by decide +kernel
  omega

theorem choiceOfOne_runs :
    ∃ p, compile "" choiceOfOne.source = .ok p ∧ ∀ {σ : Type} (host : Host σ) (m : Machine) (h : σ),
      Machine.start p.code 0 false m = .ok () (started m p.code) ∧
        RunsAs host (started m p.code, h) (choiceOfOne.Ends Store.store) ∧
        ((nullName :: choiceOfOne.variables).dedup.length ≤ 65535 →
          RunsAs host (started m p.code, h) (choiceOfOne.Ends Put.unlimited)) := by
  obtain ⟨c, htakes⟩ := takes_choiceOfOne
  obtain ⟨p, hp⟩ := Block.compiles_of_takes htakes
  exact ⟨p, hp, fun host m h =>
    Block.choices_run choiceOfOne rfl "" p hp (size_choiceOfOne hp) host m h⟩

end ScriptMachine.Structured
