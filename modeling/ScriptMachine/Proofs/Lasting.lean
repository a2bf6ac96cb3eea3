/-
  ScriptMachine.Proofs.Lasting

  What lasts over scripts and tables, however they end: the settings, and the file while it
  is loaded (`Compile.Lasts`).  The symbols come from those before by setting names that may
  be set and by stepping constants (`Compile.becomes_fed`); so reserved words stay commands.
  Setting a name refuses them; stepping a constant does not look at the name, but a word
  that stands for its command is no constant (`Symbols.Becomes.reserves`).
-/

import Mathlib.Logic.Relation
import ScriptMachine.Proofs.Composition
import ScriptMachine.Proofs.Nesting
import ScriptMachine.Proofs.Structured.Correctness

namespace ScriptMachine

open Relation

namespace Symbols

/-- Every reserved word stands for its command. -/
def Reserves (t : Symbols) : Prop :=
  ∀ word : Word, t.get? word.spelling = some (.command word)

theorem Reserves.insert {t : Symbols} (h : t.Reserves) {name : String} (s : Symbol)
    (hname : ∀ word : Word, name ≠ word.spelling) : (t.insert name s).Reserves := fun word => by
  rw [get?_insert, if_neg (hname word)]
  exact h word

theorem ne_spelling_of_not_isReserved {name : String} (h : isReserved name = false) (word : Word) :
    name ≠ word.spelling := by
  rintro rfl
  rw [isReserved, Word.ofSpelling?_spelling] at h
  cases h

theorem Becomes.reserves {t u : Symbols} (h : t.Becomes u) (k : t.Reserves) : u.Reserves := by
  cases h with
  | same => exact k
  | named hset =>
    obtain ⟨_, hfree, rfl⟩ := set_eq_ok_iff.1 hset
    exact k.insert _ (ne_spelling_of_not_isReserved hfree)
  | stepped hconstant n =>
    refine k.insert _ fun word hname => ?_
    rw [hname, k word] at hconstant
    cases hconstant

theorem Becomes.size_le {t u : Symbols} (h : t.Becomes u) : t.size ≤ u.size := by
  cases h with
  | same => exact Nat.le_refl _
  | named hset =>
    obtain ⟨_, _, rfl⟩ := set_eq_ok_iff.1 hset
    exact size_le_size_insert ..
  | stepped => exact size_le_size_insert ..

theorem reserves_of_becomes {t u : Symbols} (h : ReflTransGen Becomes t u) (k : t.Reserves) :
    u.Reserves := by
  induction h with
  | refl => exact k
  | tail _ hstep ih => exact hstep.reserves ih

theorem size_le_of_becomes {t u : Symbols} (h : ReflTransGen Becomes t u) : t.size ≤ u.size := by
  induction h with
  | refl => exact Nat.le_refl _
  | tail _ hstep ih => exact Nat.le_trans ih hstep.size_le

end Symbols

namespace Compile

variable {α : Type}

/-- The settings and the file are the same, and the symbols come from those before. -/
structure Lasts (c c' : Compiler) : Prop where
  config : c'.config = c.config
  file : c'.file = c.file
  symbols : ReflTransGen Symbols.Becomes c.symbols c'.symbols

theorem lasts_of_eq {c c' : Compiler} (hconfig : c'.config = c.config) (hfile : c'.file = c.file)
    (hsymbols : c'.symbols = c.symbols) : Lasts c c' :=
  ⟨hconfig, hfile, by rw [hsymbols]⟩

instance : Std.Refl Lasts :=
  ⟨fun _ => lasts_of_eq rfl rfl rfl⟩

instance : IsTrans Compiler Lasts :=
  ⟨fun _ _ _ h k =>
    ⟨k.config.trans h.config, k.file.trans h.file, h.symbols.trans k.symbols⟩⟩

/-- However a step ends, settings, file and symbols last. -/
theorem compositionalAll_lasts : CompositionalAll fun _ x c => Lasts c (after x c) :=
  .of_rel (fun hconfig _ hfile hsymbols => lasts_of_eq hconfig hfile hsymbols)
    fun _ _ h => ⟨rfl, rfl, .single h⟩

theorem lasts_reporting {x : Compile α} {c : Compiler} (f : Error → Error)
    (h : Lasts c (after x c)) : Lasts c (after (reporting f x) c) := by
  unfold after reporting at *
  cases hx : x c <;> rw [hx] at h <;> exact ⟨h.config, h.file, h.symbols⟩

theorem lasts_lines (file : String) (number : Nat) (texts : List (List Char)) :
    Always Lasts (lines file number texts) :=
  compositionalAll_lasts.lines (fun _ _ => lasts_of_eq rfl rfl rfl)
    lasts_reporting file number texts

/-- A feed names its file; what it does then is done line by line. -/
theorem becomes_load (feed : Feed) (c : Compiler) :
    ReflTransGen Symbols.Becomes c.symbols (after feed.load c).symbols := by
  cases feed with
  | script file source => exact (lasts_lines file 1 _ (loading c file)).symbols
  | enumeration file source =>
    exact (compositionalAll_lasts.enumLines lasts_reporting file 1 0 _ { c with file }).symbols
  | table file source =>
    exact (compositionalAll_lasts.tableLines lasts_reporting file 1 _ { c with file }).symbols

/-- Whether the feeds went well or not. -/
theorem becomes_fed (feeds : List Feed) (c : Compiler) :
    ReflTransGen Symbols.Becomes c.symbols (fed c feeds).symbols := by
  induction feeds generalizing c with
  | nil => exact .refl
  | cons feed feeds ih => exact (becomes_load feed c).trans (ih _)

theorem fed_append (c : Compiler) (feeds more : List Feed) :
    fed c (feeds ++ more) = fed (fed c feeds) more :=
  List.foldl_append

/-- Reserved words are immutable, and no symbol is ever lost.  Whatever scripts and tables a
compile run is fed with, in any order and whether they go well or not, every reserved word
stands for its own command, and feeding more never leaves fewer symbols. -/
theorem reserved_words_stay (config : Config) (feeds : List Feed) :
    (∀ word : Word, (fed (Compiler.ofConfig config) feeds).symbols.get? word.spelling =
      some (.command word)) ∧
    ∀ more : List Feed, (fed (Compiler.ofConfig config) feeds).symbols.size ≤
      (fed (Compiler.ofConfig config) (feeds ++ more)).symbols.size := by
  constructor
  · exact Symbols.reserves_of_becomes (becomes_fed feeds _) Symbols.get?_initial_spelling
  · intro more
    rw [fed_append]
    exact Symbols.size_le_of_becomes (becomes_fed more _)

end Compile

end ScriptMachine
