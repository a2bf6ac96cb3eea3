/-
  ScriptMachine.Proofs.Choices.Heads

  The first word of a line, read off its text.  As long as no word has a second name, it
  tells which command the line is, whatever was compiled before (`Compile.Tidy`).  The
  groups that a line is taken apart into are never commands and stay in their place
  (`Compile.aside_groups`); what is left of the line has the first word of the line
  (`Source.statements_heads`).
-/

import ScriptMachine.Proofs.Choices.Places
import ScriptMachine.Proofs.Grouped.Compilation
import ScriptMachine.Proofs.Spacing.Fronts
import ScriptMachine.Proofs.Structured.Correctness

namespace ScriptMachine

/-! ## First words -/

/-- The first word of a text, which goes up to a character of `stop`. -/
def headOf (stop text : List Char) : List Char :=
  (text.dropWhile blanks.contains).takeWhile fun c => !stop.contains c

/-- The reserved word that a text starts with. -/
def firstWord? (stop text : List Char) : Option Word :=
  Word.ofSpelling? (String.ofList (headOf stop text))

section
variable {stop text : List Char}

theorem contains_of_mem_headOf {c : Char} (h : c ∈ headOf stop text) : stop.contains c = false := by
  simpa using List.all_eq_true.1 List.all_takeWhile c h

/-- A text is made of blanks, its first word, and what comes behind that. -/
theorem exists_headOf (stop text : List Char) :
    ∃ front rest, text = front ++ headOf stop text ++ rest ∧
      (∀ c ∈ front, blanks.contains c = true) ∧ ∀ c ∈ rest.head?, stop.contains c = true := by
  refine ⟨text.takeWhile blanks.contains,
    (text.dropWhile blanks.contains).dropWhile fun c => !stop.contains c, ?_, ?_, ?_⟩
  · rw [List.append_assoc, headOf, List.takeWhile_append_dropWhile, List.takeWhile_append_dropWhile]
  · intro c hc
    exact List.all_eq_true.1 List.all_takeWhile c hc
  · intro c hc
    have hnot := List.head?_dropWhile_not (fun c => !stop.contains c)
      (text.dropWhile blanks.contains)
    rw [Option.mem_def.1 hc] at hnot
    simpa using hnot

theorem blanks_headOf {c : Char} (h : c ∈ (headOf stop text).head?) :
    blanks.contains c = false := by
  unfold headOf at h
  have hnot := List.head?_dropWhile_not blanks.contains text
  cases hrest : text.dropWhile blanks.contains with
  | nil =>
    rw [hrest] at h
    cases h
  | cons d rest =>
    rw [hrest] at h hnot
    rw [List.takeWhile_cons] at h
    split at h
    · obtain rfl := Option.some.inj h
      simpa using hnot
    · cases h

/-- The first word of a text that is put together. -/
theorem headOf_append {front word rest : List Char} (hfront : ∀ c ∈ front, blanks.contains c = true)
    (hne : word ≠ []) (hhead : ∀ c ∈ word.head?, blanks.contains c = false)
    (hword : ∀ c ∈ word, stop.contains c = false)
    (hrest : ∀ c ∈ rest.head?, stop.contains c = true) :
    headOf stop (front ++ word ++ rest) = word := by
  have hdrop : (word ++ rest).dropWhile blanks.contains = word ++ rest := by
    cases word with
    | nil => exact absurd rfl hne
    | cons c cs =>
      rw [List.cons_append, List.dropWhile_cons_of_neg (by rw [hhead c rfl]; decide)]
  have htake : rest.takeWhile (fun c => !stop.contains c) = [] := by
    cases rest with
    | nil => rfl
    | cons c cs => rw [List.takeWhile_cons_of_neg (by rw [hrest c rfl]; decide)]
  rw [headOf, List.append_assoc, List.dropWhile_append_of_pos hfront, hdrop,
    List.takeWhile_append_of_pos (by simpa using hword), htake, List.append_nil]

theorem headOf_ne_nil {word : Word} (h : firstWord? stop text = some word) :
    headOf stop text ≠ [] := by
  intro hnil
  have hspelling := Word.spelling_of_ofSpelling? h
  rw [hnil] at hspelling
  cases word <;> exact absurd hspelling (by decide)

end

/-! ## Statements of a line -/

namespace Source

variable {stem : String}

/-- A group is no command. -/
theorem IsGroup.firstWord? (hstem : ∀ d ∈ stem.toList, ('%' :: Compile.headStop).contains d = false)
    {text : List Char} (h : IsGroup stem text) :
    firstWord? ('%' :: Compile.headStop) text = none := by
  obtain ⟨n, rest, rfl⟩ := h
  have hword : ∀ d ∈ Grouping.temporary stem n, ('%' :: Compile.headStop).contains d = false :=
    fun d => Grouping.contains_of_mem_temporary hstem
  have hhead : headOf ('%' :: Compile.headStop) (Grouping.temporary stem n ++ '=' :: rest) =
      Grouping.temporary stem n := by
    refine @headOf_append _ [] _ _ (by simp) (Grouping.temporary_ne_nil stem n) (fun d hd => ?_)
      hword ?_
    · exact contains_of_all (by decide) (hword d (List.mem_of_mem_head? hd))
    · intro d hd
      cases hd
      decide
  rw [ScriptMachine.firstWord?, hhead]
  cases hw : Word.ofSpelling? (String.ofList (Grouping.temporary stem n)) with
  | none => rfl
  | some w =>
    -- a temporary ends in a digit, and no reserved word does
    have hspelling := congrArg String.toList (Word.spelling_of_ofSpelling? hw)
    rw [String.toList_ofList] at hspelling
    obtain ⟨d, hd⟩ := List.exists_mem_of_ne_nil _ (Nat.toDigits_ne_nil (n := n) (b := 10))
    have hdigit : d.isDigit = true := Nat.isDigit_of_mem_toDigits (by decide) (by decide) hd
    have hmem : d ∈ w.spelling.toList := by
      rw [hspelling]
      exact List.mem_append_right _ hd
    have hnone : w.spelling.toList.all (fun c => !c.isDigit) = true := by cases w <;> decide
    have := List.all_eq_true.1 hnone d hmem
    simp [hdigit] at this

/-- A line is taken apart into its groups and a statement with the first word of the line. -/
theorem statements_heads {text : List Char} {ss : List (List Char)}
    (hne : headOf Compile.headStop text ≠ []) (hpercent : '%' ∉ headOf Compile.headStop text)
    (h : statements stem text = .ok ss) :
    ∃ groups last, ss = groups ++ [last] ∧ (∀ s ∈ groups, IsGroup stem s) ∧
      headOf ('%' :: Compile.headStop) last = headOf Compile.headStop text := by
  obtain ⟨front, rest, htext, hfront, hrest⟩ := exists_headOf Compile.headStop text
  have hstop : ∀ c ∈ headOf Compile.headStop text,
      ('%' :: Compile.headStop).contains c = false := by
    intro c hc
    have hne : c ≠ '%' := by
      rintro rfl
      exact hpercent hc
    rw [List.contains_cons, contains_of_mem_headOf hc, Bool.or_false]
    exact beq_eq_false_iff_ne.2 hne
  have hopen : ∀ c ∈ front ++ headOf Compile.headStop text, c ≠ '(' := by
    rintro c hc rfl
    rcases List.mem_append.1 hc with hc | hc
    · exact absurd (hfront _ hc) (by decide)
    · exact absurd (contains_of_mem_headOf hc) (by decide)
  rw [htext] at h
  obtain ⟨groups, v, rfl, hgroups, hv⟩ := statements_front stem hopen h
  refine ⟨groups, _, rfl, hgroups, headOf_append hfront hne (fun c => blanks_headOf) hstop ?_⟩
  intro c hc
  rcases hv with hv | hv
  · rw [List.contains_cons, hrest c (hv ▸ hc), Bool.or_true]
  · obtain rfl := Option.some.inj (hv.symm.trans hc)
    decide

end Source

namespace Compile

variable {c c' : Compiler}

/-! ## Reading the first word -/

/-- A text whose first word is not empty. -/
theorem head?_eq {stop text : List Char} (h : headOf stop text ≠ []) :
    ∃ s, head? stop text = pure (some (String.ofList (headOf stop text), s)) := by
  have hrest : ((Scanner.ofLine text).skip blanks).rest = text.dropWhile blanks.contains := rfl
  have hword : ((Scanner.ofLine text).skip blanks).word? stop =
      some (headOf stop text,
        (((Scanner.ofLine text).skip blanks).run fun c => !stop.contains c).2) := by
    unfold Scanner.word?
    rw [hrest, if_neg]
    · rfl
    · intro hempty
      exact h (by rw [headOf, List.isEmpty_iff.1 hempty, List.takeWhile_nil])
  unfold head?
  dsimp only
  rw [hword]
  cases hcons : headOf stop text with
  | nil => exact absurd hcons h
  | cons d ds => exact ⟨_, rfl⟩

/-- Reading the first word gives it, or nothing where it is empty. -/
theorem headOf_of_head? {stop text : List Char} {r : Option (String × Scanner)}
    (h : head? stop text c = .ok r c') :
    (r = none ∧ headOf stop text = []) ∨
      headOf stop text ≠ [] ∧ ∃ s, r = some (String.ofList (headOf stop text), s) := by
  by_cases hne : headOf stop text = []
  · refine .inl ⟨?_, hne⟩
    cases hword : ((Scanner.ofLine text).skip blanks).word? stop with
    | none =>
      simp only [head?, hword] at h
      exact (pure_eq_ok_iff.1 h).1
    | some r =>
      obtain ⟨word, s⟩ := r
      obtain rfl : headOf stop text = word := by
        unfold Scanner.word? at hword
        split at hword
        · cases hword
        · exact congrArg Prod.fst (Option.some.inj hword)
      simp only [head?, hword, hne] at h
      exact absurd h throw_ne_ok
  · obtain ⟨s, hs⟩ := head?_eq hne
    rw [hs] at h
    exact .inr ⟨hne, s, (pure_eq_ok_iff.1 h).1⟩

/-! ## Compilers without second names -/

/-- The commands are the reserved words, each under its own name only, and the names of
temporaries are words. -/
structure Tidy (c : Compiler) : Prop where
  commands : ∀ name word,
    c.symbols.get? name = some (.command word) ↔ Word.ofSpelling? name = some word
  stem : ∀ d ∈ c.config.stem.toList, ('%' :: headStop).contains d = false

theorem tidy_fresh (file : String) : Tidy (fresh file) where
  commands name word := by
    constructor
    · intro h
      obtain ⟨w, hw, hsymbol⟩ := Symbols.get?_initial_eq_some h
      obtain rfl := Symbol.command.inj hsymbol
      rw [← hw, Word.ofSpelling?_spelling]
    · intro h
      rw [← Word.spelling_of_ofSpelling? h]
      exact Symbols.get?_initial_spelling word
  stem := by
    rw [show (fresh file).config.stem = "$" from rfl, show "$".toList = ['$'] from rfl]
    exact List.forall_mem_singleton.2 (by decide)

variable {N : String → Prop} {text : List Char}

theorem Redefines.tidy (h : Redefines False N c c') (hc : Tidy c) : Tidy c' where
  commands name word := by
    rw [← hc.commands name word]
    rcases h.names name with heq | ⟨k, k', hk, hk'⟩ | ⟨_, hfree, s, hs, hcommand⟩
    · rw [heq]
    · rw [hk, hk']
      simp
    · -- a new name is not reserved, so it was no command either
      rw [Symbols.isReserved, Option.isSome_eq_false_iff, Option.isNone_iff_eq_none] at hfree
      have hold : c.symbols.get? name ≠ some (.command word) := fun hold => by
        rw [(hc.commands name word).1 hold] at hfree
        cases hfree
      have hnew : c'.symbols.get? name ≠ some (.command word) := fun hnew =>
        hcommand word (Option.some.inj (hs.symm.trans hnew))
      exact iff_of_false hnew hold
  stem := by
    rw [h.config]
    exact hc.stem

/-- A statement without `defcmd` gives no word a second name. -/
theorem Tidy.redefines (hc : Tidy c)
    (hword : firstWord? ('%' :: headStop) text ≠ some .defineCommand)
    (hN : ∀ head s word, head? ('%' :: headStop) text c = .ok (some (head, s)) c →
      c.symbols.get? head = some (.command word) → ∀ name, Names word s name → N name)
    (hauto : ∀ name, c.symbols.contains name = false → N name)
    (h : statement text c = .ok () c') : Redefines False N c c' := by
  refine redefines_statement (fun head s word hhead hcommand => ⟨?_, ?_⟩)
    (fun head _ _ hcontains _ => hauto head hcontains) h
  · rintro rfl
    rcases headOf_of_head? hhead with ⟨hnone, _⟩ | ⟨_, t, hsome⟩
    · cases hnone
    · cases hsome
      exact hword ((hc.commands _ _).1 hcommand)
  · exact hN head s word hhead hcommand

/-- A statement that starts with a reserved word is its command. -/
theorem Tidy.statement_eq (hc : Tidy c) {word : Word}
    (hword : firstWord? ('%' :: headStop) text = some word) :
    ∃ s, statement text c = command word s c := by
  obtain ⟨s, hs⟩ := head?_eq (headOf_ne_nil hword)
  exact ⟨s, statement_of_symbol (congrFun hs c) ((hc.commands _ _).2 hword)⟩

/-- All other statements stay in their place. -/
theorem Tidy.samePlace (hc : Tidy c) (hnone : firstWord? ('%' :: headStop) text = none)
    (h : statement text c = .ok () c') : SamePlace c c' := by
  obtain ⟨r, _, hhead, h₁⟩ := bind_eq_ok_iff.1 h
  obtain rfl := head?_eq_ok hhead
  rcases headOf_of_head? hhead with ⟨rfl, _⟩ | ⟨_, s, rfl⟩
  · obtain ⟨_, rfl⟩ := pure_eq_ok_iff.1 h₁
    exact Std.Refl.refl _
  · obtain ⟨_, _, hget, h₂⟩ := bind_eq_ok_iff.1 h₁
    obtain ⟨rfl, rfl⟩ := get_eq_ok_iff.1 hget
    dsimp only at h₂
    split at h₂
    · -- the first word becomes a variable
      obtain ⟨_, d, hset, h₃⟩ := bind_eq_ok_iff.1 h₂
      have hplace := samePlace_onSymbols _ _ _ _ hset
      obtain ⟨symbols, hsymbols, rfl⟩ := onSymbols_eq_ok_iff.1 hset
      obtain ⟨_, _, rfl⟩ := Symbols.set_eq_ok_iff.1 hsymbols
      obtain ⟨_, _, hget, h₄⟩ := bind_eq_ok_iff.1 h₃
      obtain ⟨rfl, rfl⟩ := get_eq_ok_iff.1 hget
      rw [Symbols.get?_insert, if_pos rfl] at h₄
      exact IsTrans.trans _ _ _ hplace (keeps_emit _ _ _ _ h₄)
    · obtain ⟨_, _, hget, h₃⟩ := bind_eq_ok_iff.1 h₂
      obtain ⟨rfl, rfl⟩ := get_eq_ok_iff.1 hget
      generalize hsymbol : Symbols.get? _ _ = symbol at h₃
      match symbol with
      | none | some (.constant _) => exact absurd h₃ throw_ne_ok
      | some (.command word) =>
        have hword := (hc.commands _ word).1 hsymbol
        rw [← firstWord?, hnone] at hword
        cases hword
      | some (.function code params) =>
        exact ((keeps_emit _).bind fun _ => keeps_pure _) _ _ _ h₃
      | some .var => exact keeps_emit _ _ _ _ h₃

/-! ## Groups of a line -/

/-- What groups leave alone: the place, the settings, and the declared functions. -/
structure Aside (c c' : Compiler) : Prop where
  place : SamePlace c c'
  config : c'.config = c.config
  functions : ∀ name code params, c.symbols.get? name = some (.function code params) →
    c'.symbols.get? name = some (.function code params)

instance : Std.Refl Aside :=
  ⟨fun _ => ⟨Std.Refl.refl _, rfl, fun _ _ _ => id⟩⟩

instance : IsTrans Compiler Aside :=
  ⟨fun _ _ _ h k => ⟨Trans.trans h.place k.place, k.config.trans h.config,
    fun name code params hname =>
      k.functions name code params (h.functions name code params hname)⟩⟩

theorem aside_group (hc : Tidy c) (htext : Source.IsGroup c.config.stem text)
    (h : statement text c = .ok () c') : Tidy c' ∧ Aside c c' := by
  have hnone := htext.firstWord? hc.stem
  have hplace := hc.samePlace hnone h
  have hredefines : Redefines False (fun name => c.symbols.contains name = false) c c' := by
    refine hc.redefines (by simp [hnone]) (fun head s word hhead hcommand => ?_) (fun _ => id) h
    rcases headOf_of_head? hhead with ⟨hempty, _⟩ | ⟨_, t, hsome⟩
    · cases hempty
    · cases hsome
      exact absurd ((hc.commands _ _).1 hcommand) (by rw [← firstWord?, hnone]; simp)
  refine ⟨hredefines.tidy hc, hplace, hredefines.config, fun name code params hname => ?_⟩
  rcases hredefines.names name with heq | ⟨_, _, hconstant, _⟩ | ⟨hnew, _⟩
  · rw [heq, hname]
  · rw [hname] at hconstant
    cases hconstant
  · rw [Symbols.contains_eq, hname] at hnew
    cases hnew

theorem aside_groups {groups : List (List Char)} (hc : Tidy c)
    (hgroups : ∀ s ∈ groups, Source.IsGroup c.config.stem s)
    (h : groups.forM statement c = .ok () c') : Tidy c' ∧ Aside c c' := by
  induction groups generalizing c with
  | nil =>
    obtain ⟨_, rfl⟩ := pure_eq_ok_iff.1 h
    exact ⟨hc, Std.Refl.refl _⟩
  | cons s groups ih =>
    obtain ⟨hs, hmore⟩ := List.forall_mem_cons.1 hgroups
    obtain ⟨_, d, hd, hrest⟩ := bind_eq_ok_iff.1 h
    obtain ⟨htidy, haside⟩ := aside_group hc hs hd
    rw [← haside.config] at hmore
    obtain ⟨htidy, hmore⟩ := ih htidy hmore hrest
    exact ⟨htidy, Trans.trans haside hmore⟩

end Compile

end ScriptMachine
