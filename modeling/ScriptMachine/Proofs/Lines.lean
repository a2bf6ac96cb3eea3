/-
  ScriptMachine.Proofs.Lines

  Scripts are compiled line by line.  `Compile.Takes c texts c'` says that the lines
  `texts` take the compiler from `c` to `c'`; a script is compiled when its lines
  take a fresh compiler to a state that can be finished (`compile_eq_ok_iff`).
-/

import ScriptMachine.Proofs.Commands
import ScriptMachine.Proofs.Control

namespace ScriptMachine

theorem Symbols.contains_eq (t : Symbols) (name : String) :
    t.contains name = (t.get? name).isSome := by
  rw [contains, get?, Std.TreeMap.contains_eq_isSome_getElem?]

namespace Compile

variable {c c' d : Compiler}

/-! ## Lines in order -/

/-- Each line in turn is compiled, from the state that the line before it left. -/
inductive Takes : Compiler → List (List Char) → Compiler → Prop where
  | nil (c : Compiler) : Takes c [] c
  | cons {c d c' : Compiler} {text : List Char} {rest : List (List Char)}
    (h : line text c = .ok () d) (k : Takes d rest c') : Takes c (text :: rest) c'

theorem takes_nil_iff : Takes c [] c' ↔ c' = c := by
  constructor
  · rintro ⟨⟩
    rfl
  · rintro rfl
    exact .nil _

theorem takes_cons_iff {text : List Char} {rest : List (List Char)} :
    Takes c (text :: rest) c' ↔ ∃ d, line text c = .ok () d ∧ Takes d rest c' := by
  constructor
  · rintro (_ | ⟨h, k⟩)
    exact ⟨_, h, k⟩
  · rintro ⟨d, h, k⟩
    exact .cons h k

theorem takes_singleton_iff {text : List Char} :
    Takes c [text] c' ↔ line text c = .ok () c' := by
  simp only [takes_cons_iff, takes_nil_iff]
  constructor
  · rintro ⟨d, h, rfl⟩
    exact h
  · intro h
    exact ⟨c', h, rfl⟩

theorem takes_append_iff {ls ms : List (List Char)} :
    Takes c (ls ++ ms) c' ↔ ∃ d, Takes c ls d ∧ Takes d ms c' := by
  induction ls generalizing c with
  | nil =>
    constructor
    · intro h
      exact ⟨c, .nil c, h⟩
    · rintro ⟨d, h, k⟩
      obtain rfl := takes_nil_iff.1 h
      exact k
  | cons text ls ih =>
    simp only [List.cons_append, takes_cons_iff, ih]
    constructor
    · rintro ⟨d, h, e, k, l⟩
      exact ⟨e, ⟨d, h, k⟩, l⟩
    · rintro ⟨e, ⟨d, h, k⟩, l⟩
      exact ⟨d, h, e, k, l⟩

theorem lines_eq_ok_iff {file : String} {number : Nat} {texts : List (List Char)} {u : Unit} :
    lines file number texts c = .ok u c' ↔ Takes c texts c' := by
  induction texts generalizing number c with
  | nil =>
    rw [lines, pure_eq_ok_iff, takes_nil_iff]
    exact ⟨fun h => h.2, fun h => ⟨rfl, h⟩⟩
  | cons text rest ih =>
    simp only [lines, bind_eq_ok_iff, onLine_eq_ok_iff, takes_cons_iff, ih]
    constructor
    · rintro ⟨_, d, h, k⟩
      exact ⟨d, h, k⟩
    · rintro ⟨d, h, k⟩
      exact ⟨(), d, h, k⟩

/-! ## Scripts -/

/-- A compile run that is about to take in the lines of a file. -/
def loading (c : Compiler) (file : String) : Compiler :=
  { c with file, program := c.program.comment ("load " ++ file) }

theorem script_eq_ok_iff {file source : String} {u : Unit} :
    script file source c = .ok u c' ↔ Takes (loading c file) (Source.lines source) c' := by
  unfold script
  simp only [bind_eq_ok_iff, modify_eq_ok_iff, comment_eq_ok_iff, lines_eq_ok_iff]
  constructor
  · rintro ⟨_, _, rfl, _, _, rfl, h⟩
    exact h
  · intro h
    exact ⟨(), _, rfl, (), _, rfl, h⟩

/-- A fresh compile run that is about to take in the lines of a file. -/
def fresh (file : String) : Compiler :=
  loading (Compiler.ofConfig {}) file

end Compile

open Compile in
/-- A script is compiled when a fresh run takes its lines and can be finished. -/
theorem compile_eq_ok_iff {file source : String} {p : Program} :
    compile file source = .ok p ↔ ∃ c c', Takes (fresh file) (Source.lines source) c ∧
      finish c = .ok p c' := by
  unfold compile
  dsimp only
  constructor
  · intro h
    split at h
    · rename_i q c' hq
      obtain rfl := Except.ok.inj h
      obtain ⟨_, c, hscript, hfinish⟩ := bind_eq_ok_iff.1 hq
      exact ⟨c, c', script_eq_ok_iff.1 hscript, hfinish⟩
    · cases h
  · rintro ⟨c, c', htakes, hfinish⟩
    rw [bind_eq_ok_iff.2 ⟨(), c, script_eq_ok_iff.2 htakes, hfinish⟩]

namespace Compile

/-! ## Statements -/

/-- What a statement does when its first word has this symbol. -/
def ofSymbol (head : String) (s : Scanner) : Symbol → Compile Unit
  | .command word => command word s
  | .function code params => do
    let _ ← emit (·.call code params s)
  | .var => emit (·.assignment head s)
  | .constant _ => throw (.of (.constantStatement head))

theorem statement_of_symbol {text : List Char} {head : String} {s : Scanner} {symbol : Symbol}
    (hhead : head? ('%' :: headStop) text c = .ok (some (head, s)) c)
    (hsymbol : c.symbols.get? head = some symbol) :
    statement text c = ofSymbol head s symbol c := by
  have hcontains : c.symbols.contains head = true := by
    rw [Symbols.contains_eq, hsymbol]
    rfl
  unfold statement
  rw [bind_of_eq_ok hhead]
  dsimp only
  rw [get_bind, if_neg (by simp [hcontains]), get_bind, hsymbol]
  cases symbol <;> rfl

/-! ## The names of a control word -/

/-- The names and the settings stay as they are. -/
structure SameNames (c c' : Compiler) : Prop where
  symbols : c'.symbols = c.symbols
  config : c'.config = c.config

instance : Std.Refl SameNames :=
  ⟨fun _ => ⟨rfl, rfl⟩⟩

instance : IsTrans Compiler SameNames :=
  ⟨fun _ _ _ h k => ⟨k.symbols.trans h.symbols, k.config.trans h.config⟩⟩

instance : Overlooks SameNames :=
  ⟨fun _ _ _ _ => ⟨rfl, rfl⟩, fun _ _ _ => ⟨rfl, rfl⟩, fun _ _ _ => ⟨rfl, rfl⟩⟩

theorem sameNames_onStructures {α : Type} (x : EStateM Error (Stack Word) α) :
    Keeps SameNames (onStructures x) :=
  keeps_onStack (fun _ _ => ⟨rfl, rfl⟩) x

theorem sameNames_onSwitchEnds {α : Type} (x : EStateM Error (Stack Label) α) :
    Keeps SameNames (onSwitchEnds x) :=
  keeps_onStack (fun _ _ => ⟨rfl, rfl⟩) x

/-- The bookkeeping of a control word leaves all names alone. -/
theorem sameNames_control (word : Word) : Keeps SameNames (control word) :=
  KeepsBlocks.control ⟨fun _ => keeps_onBlocks _ _, fun _ => keeps_onBlocks _ _,
    fun _ => keeps_onBlocks _ _, fun _ => sameNames_onStructures _, sameNames_onStructures _,
    sameNames_onSwitchEnds _, keeps_goto⟩ word

end Compile

end ScriptMachine
