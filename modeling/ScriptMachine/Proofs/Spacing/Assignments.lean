/-
  ScriptMachine.Proofs.Spacing.Assignments

  Blanks around an assigning operator.  A line that assigns to a variable is accepted
  with blanks around its operator exactly when it is accepted without them, and both
  leave the same state of the compiler (`Compile.blanks_around_assignment`).  The one
  exception is `%=`: the first word of a line goes on over a `%`, where the first word
  of a statement ends, so that without a blank another name is looked up first.

  The two lines differ in their fronts only.  Their groups are the same statements, and
  what is left of them differs in its front only (`Source.statements_fronts`); in front
  of the operator and behind it, the drafts of an assignment skip blanks.
-/

import ScriptMachine.Proofs.Grouped.Evaluation
import ScriptMachine.Proofs.Naming
import ScriptMachine.Proofs.Spacing.Drafts
import ScriptMachine.Proofs.Spacing.Fronts

namespace ScriptMachine

namespace Source

/-! ## Comments behind a front -/

/-- What was read before does not matter for the rest of a line. -/
theorem blankFrom_append (region : Region) (out more cs : List Char) :
    blankFrom region (out ++ more) cs =
      ((blankFrom region out cs).1 ++ more, (blankFrom region out cs).2) := by
  fun_induction blankFrom region out cs with
  | case1 => simp [blankFrom]
  | _ => simp_all [blankFrom]

/-- A text without quotes and slashes stays as it is. -/
theorem blankFrom_front {front : List Char} (h : ∀ c ∈ front, c ≠ '"' ∧ c ≠ '/')
    (out cs : List Char) :
    blankFrom .code out (front ++ cs) = blankFrom .code (front.reverse ++ out) cs := by
  induction front generalizing out with
  | nil => rfl
  | cons c front ih =>
    obtain ⟨hc, hfront⟩ := List.forall_mem_cons.1 h
    rw [List.cons_append, Structured.blankFrom_char hc.1 hc.2, ih hfront, List.reverse_cons,
      List.append_assoc, List.singleton_append]

/-- Behind a front that is code, the rest of a line is cleaned as a line of its own. -/
theorem cleanLine_front (front : List Char) {c : Char} {cs : List Char}
    (hfront : blankFrom .code [] (front ++ c :: cs) = blankFrom .code front.reverse (c :: cs))
    (hc : Text.isBlank c = false ∧ c ≠ '/') :
    ∃ rest inComment, cleanLine false (front ++ c :: cs) = (front ++ c :: rest, inComment) ∧
      cleanLine false (c :: cs) = (c :: rest, inComment) := by
  obtain ⟨region, hregion⟩ : ∃ region, ∀ out,
      blankFrom .code out (c :: cs) = blankFrom region (c :: out) cs := by
    by_cases hquote : c = '"'
    · exact ⟨.quoted, fun out => by rw [hquote, blankFrom.eq_def]; rfl⟩
    · exact ⟨.code, fun out => Structured.blankFrom_char hquote hc.2 out cs⟩
  have hafter : ∀ out, blankFrom .code out (c :: cs) =
      ((blankFrom region [] cs).1 ++ c :: out, (blankFrom region [] cs).2) := fun out =>
    (hregion out).trans (blankFrom_append region [] (c :: out) cs)
  -- the first character is not blank, so that trimming ends behind it
  have htrim : ∀ out, ((blankFrom region [] cs).1 ++ c :: out).dropWhile Text.isBlank =
      (blankFrom region [] cs).1.dropWhile Text.isBlank ++ c :: out := by
    intro out
    rw [List.dropWhile_append]
    split
    · rename_i hempty
      rw [List.isEmpty_iff.1 hempty, List.dropWhile_cons_of_neg (by simp [hc.1]), List.nil_append]
    · rfl
  refine ⟨((blankFrom region [] cs).1.dropWhile Text.isBlank).reverse,
    (blankFrom region [] cs).2 = .comment, ?_, ?_⟩
  · unfold cleanLine
    rw [if_neg Bool.false_ne_true, hfront, hafter]
    dsimp only
    rw [htrim]
    simp
  · unfold cleanLine
    rw [if_neg Bool.false_ne_true, hafter]
    dsimp only
    rw [htrim]
    simp

end Source

/-! ## Groups and variables -/

namespace Compile

open Structured

/-- The name that a command defines is none of a variable when a `=` stands behind the
command word. -/
theorem ne_of_names {word : Word} {s : Scanner} {rest : List Char} (hs : s.rest = '=' :: rest)
    {name : String} (hname : Names word s name) (x : Name) : name ≠ x.text := by
  have hskip : (s.skip blanks).rest = '=' :: rest := by
    rw [Scanner.rest_skip, hs]
    exact List.dropWhile_cons_of_neg (by decide)
  have hletter : isLetter x.first = true := x.letter
  have hfirst : x.first ≠ '=' ∧ x.first ≠ '$' :=
    ⟨fun h => absurd hletter (by rw [h]; decide), fun h => absurd hletter (by rw [h]; decide)⟩
  rintro rfl
  -- the word behind the command word is empty or starts with the `=`
  have hword : ∀ {stop cs t}, (s.skip blanks).word? stop = some (cs, t) →
      x.text = String.ofList cs → False := by
    intro stop cs t hword hcs
    have hcs : x.first :: x.rest = cs := String.ofList_injective hcs
    unfold Scanner.word? at hword
    rw [hskip, if_neg (by simp)] at hword
    have htaken := congrArg Prod.fst (Option.some.inj hword)
    simp only [Scanner.run, hskip, List.takeWhile_cons, ← hcs] at htaken
    split at htaken
    · exact hfirst.1 (List.cons.inj htaken).1.symm
    · cases htaken
  cases word with
  | var | declare | define | defineCommand =>
    obtain ⟨cs, t, ht, hcs⟩ := hname
    exact hword ht hcs
  | choose =>
    have hcase : x.first :: x.rest = caseName.toList := by
      rw [← String.toList_ofList (l := x.first :: x.rest)]
      exact congrArg String.toList hname
    exact hfirst.2 (List.cons.inj hcase).1
  | _ => exact hname

/-- The statement of a group leaves the variables of a script alone, whatever the name of
its temporary stands for. -/
theorem var_of_group {c c' : Compiler} {text : List Char}
    (hstem : ∀ d ∈ c.config.stem.toList, ('%' :: headStop).contains d = false)
    (htext : Source.IsGroup c.config.stem text) (x : Name)
    (hx : c.symbols.get? x.text = some .var) (h : statement text c = .ok () c') :
    c'.config = c.config ∧ c'.symbols.get? x.text = some .var := by
  obtain ⟨n, rest, rfl⟩ := htext
  have hne := Source.Grouping.temporary_ne_nil c.config.stem n
  have hword : ∀ d ∈ Source.Grouping.temporary c.config.stem n,
      ('%' :: headStop).contains d = false :=
    fun d => Source.Grouping.contains_of_mem_temporary hstem
  have hfront : ∀ d ∈ (Source.Grouping.temporary c.config.stem n ++ '=' :: rest).head?,
      blanks.contains d = false := by
    intro d hd
    rw [List.head?_append_of_ne_nil _ hne] at hd
    exact contains_of_all (by decide) (hword d (List.mem_of_mem_head? hd))
  have hhead : ∀ head s, head? ('%' :: headStop)
      (Source.Grouping.temporary c.config.stem n ++ '=' :: rest) c = .ok (some (head, s)) c →
      s.rest = '=' :: rest := by
    intro head s hs
    rw [head?_append hne hword hfront (by intro d hd; cases hd; decide)] at hs
    obtain ⟨heq, _⟩ := pure_eq_ok_iff.1 hs
    cases heq
    rfl
  have hredefines : Redefines True (· ≠ x.text) c c' := by
    refine redefines_statement (fun head s word hs _ => ⟨fun _ => trivial, fun name hname => ?_⟩)
      ?_ h
    · exact ne_of_names (hhead head s hs) hname x
    · rintro head s hs hcontains _ rfl
      rw [Symbols.contains_eq, hx] at hcontains
      cases hcontains
  exact ⟨hredefines.config, hredefines.var (fun h => h rfl) hx⟩

theorem var_of_groups {texts : List (List Char)} {c c' : Compiler}
    (hstem : ∀ d ∈ c.config.stem.toList, ('%' :: headStop).contains d = false)
    (htexts : ∀ s ∈ texts, Source.IsGroup c.config.stem s) (x : Name)
    (hx : c.symbols.get? x.text = some .var) (h : texts.forM statement c = .ok () c') :
    c'.symbols.get? x.text = some .var := by
  induction texts generalizing c with
  | nil =>
    obtain ⟨_, rfl⟩ := pure_eq_ok_iff.1 h
    exact hx
  | cons text texts ih =>
    obtain ⟨htext, htexts⟩ := List.forall_mem_cons.1 htexts
    obtain ⟨_, d, hd, hrest⟩ := bind_eq_ok_iff.1 h
    obtain ⟨hconfig, hvar⟩ := var_of_group hstem htext x hx hd
    rw [← hconfig] at hstem htexts
    exact ih hstem htexts hvar hrest

/-! ## Updates of a variable -/

/-- The operators that change a variable. -/
inductive Update where
  | store (how : Assignment)
  | increment
  | decrement
  deriving DecidableEq

namespace Update

/-- Spelling of an operator. -/
def chars : Update → List Char
  | store how => spelling how
  | increment => ['+', '+']
  | decrement => ['-', '-']

/-- A character that an expression may start with: a letter, a digit or a quote. -/
def isStart (c : Char) : Bool :=
  isLetter c || c.isDigit || c == '"'

/-- The text behind the operator: that of an expression, and nothing behind a step. -/
def Takes (op : Update) (e : List Char) : Prop :=
  match op with
  | store _ => ∃ c cs, e = c :: cs ∧ isStart c = true
  | increment | decrement => e = []

theorem isBlank_of_isStart {c : Char} (h : isStart c = true) : Text.isBlank c = false := by
  simp only [isStart, Bool.or_eq_true, beq_iff_eq] at h
  have hordinary : isOrdinary c = true → Text.isBlank c = false := fun h => by
    simp only [isOrdinary, Bool.and_eq_true, Bool.not_eq_true'] at h
    exact h.1
  rcases h with (hletter | hdigit) | rfl
  · exact hordinary (isOrdinary_of_isLetter hletter)
  · exact hordinary (isOrdinary_of_isDigit hdigit)
  · decide

/-- Neither a parenthesis nor a character of an operator starts an expression. -/
theorem contains_of_isStart {c : Char} (h : isStart c = true) :
    ('(' :: ')' :: assigning).contains c = false := by
  simp only [isStart, Bool.or_eq_true, beq_iff_eq] at h
  rcases h with (hletter | hdigit) | rfl
  · exact contains_of_isOrdinary (isOrdinary_of_isLetter hletter) (by decide)
  · exact contains_of_isOrdinary (isOrdinary_of_isDigit hdigit) (by decide)
  · decide

theorem chars_ne_nil (op : Update) : op.chars ≠ [] := by
  rcases op with (_ | _ | _ | _ | _ | _) | _ | _ <;> decide

theorem contains_assigning (op : Update) : ∀ c ∈ op.chars, assigning.contains c = true := by
  rcases op with (_ | _ | _ | _ | _ | _) | _ | _ <;> exact List.all_eq_true.1 (by decide)

/-- The operator ends the first word of a line, but for `%=`. -/
theorem head_contains {op : Update} (hop : op ≠ .store .mod) (cs : List Char) :
    ∀ c ∈ (op.chars ++ cs).head?, headStop.contains c = true := by
  rcases op with (_ | _ | _ | _ | _ | _) | _ | _
  case store.mod => exact absurd rfl hop
  all_goals
    intro c hc
    cases hc
    decide

theorem head_statement (op : Update) (cs : List Char) :
    ∀ c ∈ (op.chars ++ cs).head?, ('%' :: headStop).contains c = true := by
  rcases op with (_ | _ | _ | _ | _ | _) | _ | _
  all_goals
    intro c hc
    cases hc
    decide

theorem head_blanks (op : Update) (cs : List Char) :
    ∀ c ∈ (op.chars ++ cs).head?, blanks.contains c = false := by
  rcases op with (_ | _ | _ | _ | _ | _) | _ | _
  all_goals
    intro c hc
    cases hc
    decide

theorem operator? (op : Update) {cs : List Char}
    (hcs : ∀ c ∈ cs.head?, assigning.contains c = false) (o : Nat) :
    Scanner.operator? assigning ⟨o, op.chars ++ cs⟩ =
      some (op.chars, ⟨o + Text.utf8Length op.chars, cs⟩) :=
  Scanner.operator?_append op.chars_ne_nil op.contains_assigning hcs

/-- Nothing of an operator is blanked out. -/
theorem blankFrom (op : Update) (out cs : List Char) :
    Source.blankFrom .code out (op.chars ++ cs) =
      Source.blankFrom .code (op.chars.reverse ++ out) cs := by
  rcases op with (_ | _ | _ | _ | _ | _) | _ | _ <;> simp [chars, spelling, Source.blankFrom]

/-- The line that updates a variable, without blanks. -/
def tight (op : Update) (x : Name) (e : List Char) : List Char :=
  x.chars ++ (op.chars ++ e)

/-- The line that updates a variable, with a blank on both sides of the operator. -/
def spaced (op : Update) (x : Name) (e : List Char) : List Char :=
  x.chars ++ ' ' :: (op.chars ++ ' ' :: e)

theorem name_front (x : Name) (cs : List Char) :
    Source.blankFrom .code [] (x.chars ++ cs) = Source.blankFrom .code x.chars.reverse cs := by
  have hname : ∀ c ∈ x.chars, c ≠ '"' ∧ c ≠ '/' := by
    intro c hc
    have hplain : ['"', '/'].contains c = false :=
      contains_of_isOrdinary (x.isWord.2 c hc) (by decide)
    simpa using hplain
  simpa using Source.blankFrom_front hname [] cs

/-- Without comments and trailing blanks, the two lines still differ in blanks only. -/
structure Cleaned (op : Update) (x : Name) (e e' gap : List Char) (inComment : Bool) : Prop where
  tight : Source.cleanLine false (op.tight x e) = (x.chars ++ (op.chars ++ e'), inComment)
  spaced : Source.cleanLine false (op.spaced x e) =
    (x.chars ++ ' ' :: (op.chars ++ (gap ++ e')), inComment)
  gap : ∀ c ∈ gap, c = ' '
  start : ∀ c ∈ e'.head?, isStart c = true

theorem blankFrom_blank (out cs : List Char) :
    Source.blankFrom .code out (' ' :: cs) = Source.blankFrom .code (' ' :: out) cs :=
  blankFrom_char (by decide) (by decide) out cs

theorem cleaned_step {op : Update} {c : Char} (hop : op.chars = [c, c])
    (hc : Text.isBlank c = false) (x : Name) : Cleaned op x [] [] [] false where
  tight := by
    unfold Source.cleanLine tight
    rw [if_neg Bool.false_ne_true, name_front, op.blankFrom, hop]
    simp [Source.blankFrom, hc]
  spaced := by
    unfold Source.cleanLine spaced
    rw [if_neg Bool.false_ne_true, name_front, blankFrom_blank, op.blankFrom, blankFrom_blank, hop]
    simp [Source.blankFrom, hc, show Text.isBlank ' ' = true by decide]
  gap := by simp
  start := by simp

theorem cleaned_store (op : Update) (x : Name) {c : Char} (hc : isStart c = true)
    (cs : List Char) : ∃ rest inComment, Cleaned op x (c :: cs) (c :: rest) [' '] inComment := by
  have hplain : Text.isBlank c = false ∧ c ≠ '/' := by
    refine ⟨isBlank_of_isStart hc, ?_⟩
    rintro rfl
    exact absurd hc (by decide)
  obtain ⟨rest, b, htight, hcs⟩ := Source.cleanLine_front (x.chars ++ op.chars)
    (by rw [List.append_assoc, name_front, op.blankFrom, List.reverse_append]) hplain
  obtain ⟨rest', b', hspaced, hcs'⟩ := Source.cleanLine_front
    (x.chars ++ ' ' :: (op.chars ++ [' ']))
    (by
      rw [List.append_assoc, name_front, List.cons_append, blankFrom_blank, List.append_assoc,
        op.blankFrom, List.singleton_append, blankFrom_blank]
      simp) hplain
  obtain ⟨hrest, rfl⟩ := Prod.mk.inj (hcs.symm.trans hcs')
  obtain rfl := (List.cons.inj hrest).2
  refine ⟨rest, b, ?_, ?_, by simp, by simpa using hc⟩
  · rw [tight, ← List.append_assoc, htight, List.append_assoc]
  · have htext : spaced op x (c :: cs) = x.chars ++ ' ' :: (op.chars ++ [' ']) ++ c :: cs := by
      simp [spaced]
    rw [htext, hspaced]
    simp

theorem cleaned (op : Update) (x : Name) {e : List Char} (he : op.Takes e) :
    ∃ e' gap inComment, Cleaned op x e e' gap inComment := by
  cases op with
  | store how =>
    obtain ⟨c, cs, rfl, hc⟩ := he
    obtain ⟨rest, b, h⟩ := cleaned_store (store how) x hc cs
    exact ⟨_, _, b, h⟩
  | increment =>
    obtain rfl : e = [] := he
    exact ⟨[], [], false, cleaned_step (c := '+') rfl (by decide) x⟩
  | decrement =>
    obtain rfl : e = [] := he
    exact ⟨[], [], false, cleaned_step (c := '-') rfl (by decide) x⟩

end Update

/-! ## Statements and lines -/

section
variable {c d : Compiler} {x : Name}

/-- Blanks around the operator of a statement do not matter. -/
theorem statement_update_iff (op : Update) (hx : c.symbols.get? x.text = some .var)
    {v gap : List Char} (hv : ∀ c ∈ v.head?, assigning.contains c = false)
    (hgap : ∀ c ∈ gap, c = ' ') :
    statement (x.chars ++ (op.chars ++ v)) c = .ok () d ↔
      statement (x.chars ++ ' ' :: (op.chars ++ (gap ++ v))) c = .ok () d := by
  have hhead : ∀ cs, ∀ c ∈ (x.chars ++ cs).head?, blanks.contains c = false := fun _ =>
    x.isWord.head_contains (by decide)
  have hword : ∀ c ∈ x.chars, ('%' :: headStop).contains c = false := fun c hc =>
    contains_of_isOrdinary (x.isWord.2 c hc) (by decide)
  have hgap' : ∀ c ∈ (gap ++ v).head?, assigning.contains c = false := by
    cases gap with
    | nil => exact hv
    | cons g gap =>
      intro c hc
      cases hc
      rw [hgap g List.mem_cons_self]
      decide
  have hs : Scanner.skip blanks ⟨Text.utf8Length x.chars, op.chars ++ v⟩ = _ :=
    Scanner.skip_of_head (op.head_blanks v)
  have ht : Scanner.skip blanks ⟨Text.utf8Length x.chars, ' ' :: (op.chars ++ (gap ++ v))⟩ = _ :=
    Scanner.skip_cons (by decide) (op.head_blanks _)
  have hskip : v.dropWhile blanks.contains = (gap ++ v).dropWhile blanks.contains := by
    refine (List.dropWhile_append_of_pos fun c hc => ?_).symm
    rw [hgap c hc]
    decide
  have hs' := op.operator? hv (Text.utf8Length x.chars)
  have ht' := op.operator? hgap' (Text.utf8Length x.chars + Text.utf8Length [' '])
  rw [← hs] at hs'
  rw [← ht] at ht'
  have halike := c.context.alike_assignment x.text hs' ht' hskip
  rw [Grouped.statement_var x.isWord.1 hword (hhead _) (op.head_statement v) hx,
    Grouped.statement_var x.isWord.1 hword (hhead _) (by intro c hc; cases hc; decide) hx,
    emit_eq_ok_iff, emit_eq_ok_iff]
  exact exists_congr fun items => and_congr_left fun _ => Context.eq_ok_iff_of_alike halike

/-- Lines that update a variable are alike, as soon as their first words pass. -/
theorem line_update_iff (op : Update)
    (hstem : ∀ d ∈ c.config.stem.toList, ('%' :: headStop).contains d = false)
    (hx : c.symbols.get? x.text = some .var) {e gap : List Char}
    (he : ∀ c ∈ e.head?, Update.isStart c = true) (hgap : ∀ c ∈ gap, c = ' ')
    (htight : opening (x.chars ++ (op.chars ++ e)) c =
      Compile.ofExcept (Source.statements c.config.stem (x.chars ++ (op.chars ++ e))) c) :
    line (x.chars ++ (op.chars ++ e)) c = .ok () d ↔
      line (x.chars ++ ' ' :: (op.chars ++ (gap ++ e))) c = .ok () d := by
  have hpass : Passes c x.text := .inl ⟨_, hx, by simp⟩
  have hspaced := opening_of_passes (congrFun (head?_word x.isWord
    (follows_blank (op.chars ++ (gap ++ e))) (by decide) (by decide)) c) hpass
  have hname : ∀ d ∈ x.chars, d ≠ '"' ∧ d ≠ '(' ∧ d ≠ ')' := by
    intro d hd
    have hplain : ['"', '(', ')'].contains d = false :=
      contains_of_isOrdinary (x.isWord.2 d hd) (by decide)
    simpa using hplain
  have hsign : ∀ d ∈ op.chars, d ≠ '"' ∧ d ≠ '(' ∧ d ≠ ')' := by
    rcases op with (_ | _ | _ | _ | _ | _) | _ | _ <;> simp [Update.chars, spelling]
  have hp : ∀ d ∈ x.chars ++ op.chars, d ≠ '"' ∧ d ≠ '(' ∧ d ≠ ')' :=
    List.forall_mem_append.2 ⟨hname, hsign⟩
  have hq : ∀ d ∈ x.chars ++ ' ' :: (op.chars ++ gap), d ≠ '"' ∧ d ≠ '(' ∧ d ≠ ')' := by
    refine List.forall_mem_append.2 ⟨hname, List.forall_mem_cons.2 ⟨by decide,
      List.forall_mem_append.2 ⟨hsign, fun d hd => ?_⟩⟩⟩
    rw [hgap d hd]
    decide
  have hparens : ∀ d ∈ e.head?, d ≠ '(' ∧ d ≠ ')' := by
    intro d hd
    have hplain := Update.contains_of_isStart (he d hd)
    simp only [List.contains_cons, Bool.or_eq_false_iff, beq_eq_false_iff_ne] at hplain
    exact ⟨hplain.1, hplain.2.1⟩
  have hassigning : ∀ v : List Char, v.head? = e.head? →
      ∀ d ∈ v.head?, assigning.contains d = false := by
    intro v hv d hd
    rw [hv] at hd
    exact contains_of_all (by decide) (Update.contains_of_isStart (he d hd))
  rw [line_eq_ok_iff, line_eq_ok_iff, htight, hspaced]
  have hstatements := Source.statements_fronts c.config.stem hp hq hparens
  simp only [List.append_assoc, List.cons_append] at hstatements
  rcases hstatements with ⟨fs, v, htight, hspaced, hgroups, hv⟩ | ⟨⟨_, htight⟩, ⟨_, hspaced⟩⟩
  · rw [htight, hspaced]
    have hstatement := fun d' (hd' : d'.symbols.get? x.text = some .var) =>
      statement_update_iff (c := d') (d := d) op hd' (hassigning v hv) hgap
    simp only [ofExcept_eq_ok_iff, Except.ok.injEq]
    constructor
    · rintro ⟨_, _, ⟨rfl, rfl⟩, hrest⟩
      obtain ⟨d', hfs, hlast⟩ := Grouped.forM_append_eq_ok_iff.1 hrest
      have hvar := var_of_groups hstem hgroups x hx hfs
      refine ⟨_, _, ⟨rfl, rfl⟩, Grouped.forM_append_eq_ok_iff.2 ⟨d', hfs, ?_⟩⟩
      exact Grouped.forM_singleton_eq_ok_iff.2
        ((hstatement d' hvar).1 (Grouped.forM_singleton_eq_ok_iff.1 hlast))
    · rintro ⟨_, _, ⟨rfl, rfl⟩, hrest⟩
      obtain ⟨d', hfs, hlast⟩ := Grouped.forM_append_eq_ok_iff.1 hrest
      have hvar := var_of_groups hstem hgroups x hx hfs
      refine ⟨_, _, ⟨rfl, rfl⟩, Grouped.forM_append_eq_ok_iff.2 ⟨d', hfs, ?_⟩⟩
      exact Grouped.forM_singleton_eq_ok_iff.2
        ((hstatement d' hvar).2 (Grouped.forM_singleton_eq_ok_iff.1 hlast))
  · rw [htight, hspaced]
    simp [ofExcept_eq_ok_iff]

end

/-! ## Blanks around the operator -/

/-- The first word of a line goes on over a `%`. -/
theorem percent_word (x : Name) (rest : List Char) :
    x.chars ++ (Update.chars (.store .mod) ++ rest) = (x.chars ++ ['%']) ++ '=' :: rest ∧
      String.ofList (x.chars ++ ['%']) = x.text ++ "%" ∧ x.chars ++ ['%'] ≠ [] ∧
      (∀ d ∈ x.chars ++ ['%'], headStop.contains d = false) ∧
      (∀ d ∈ ((x.chars ++ ['%']) ++ '=' :: rest).head?, blanks.contains d = false) ∧
      ∀ d ∈ ('=' :: rest).head?, headStop.contains d = true := by
  refine ⟨by simp [Update.chars, spelling], String.ofList_append, by simp, ?_, ?_, ?_⟩
  · refine List.forall_mem_append.2 ⟨fun d hd => ?_, List.forall_mem_singleton.2 (by decide)⟩
    exact contains_of_isOrdinary (x.isWord.2 d hd) (by decide)
  · rw [List.append_assoc]
    exact x.isWord.head_contains (by decide)
  · intro d hd
    cases hd
    decide

/-- A line that updates a variable is accepted without blanks around its operator exactly
when it is accepted with them, and then both leave the same state: the same bytes, names
and open blocks.  For `%=` this holds where the name with a `%` behind it passes as the
first word of a line; where that stands for nothing, the line without blanks is never
accepted. -/
theorem blanks_around_assignment {c : Compiler}
    (hstem : ∀ d ∈ c.config.stem.toList, ('%' :: headStop).contains d = false) {x : Name}
    (hx : c.symbols.get? x.text = some .var) {op : Update} {e : List Char} (he : op.Takes e) :
    ∃ tight spaced inComment, Source.cleanLine false (op.tight x e) = (tight, inComment) ∧
      Source.cleanLine false (op.spaced x e) = (spaced, inComment) ∧
      (op ≠ .store .mod ∨ Passes c (x.text ++ "%") →
        ∀ d, line tight c = .ok () d ↔ line spaced c = .ok () d) ∧
      (op = .store .mod → c.symbols.get? (x.text ++ "%") = none →
        isAutoVariable c.config (x.text ++ "%") = false → ∀ d, line tight c ≠ .ok () d) := by
  obtain ⟨e', gap, inComment, hclean⟩ := op.cleaned x he
  obtain ⟨hpercent, hname, hne, hword, hhead, hrest⟩ := percent_word x e'
  refine ⟨_, _, inComment, hclean.tight, hclean.spaced, fun hop d => ?_, ?_⟩
  · refine line_update_iff op hstem hx hclean.start hclean.gap ?_
    by_cases hmod : op = .store .mod
    · subst hmod
      rw [hpercent]
      refine opening_of_passes (congrFun (head?_append hne hword hhead hrest) c) ?_
      rw [hname]
      exact hop.resolve_left fun h => h rfl
    · have hfirst := head?_append x.isWord.1
        (fun d hd => contains_of_isOrdinary (x.isWord.2 d hd) (by decide))
        (x.isWord.head_contains (by decide)) (Update.head_contains hmod e')
      exact opening_of_passes (congrFun hfirst c) (.inl ⟨_, hx, by simp⟩)
  · rintro rfl hnone hauto d hd
    obtain ⟨statements, d', hopening, _⟩ := line_eq_ok hd
    rw [hpercent] at hopening
    unfold opening at hopening
    rw [head?_append hne hword hhead hrest, pure_bind] at hopening
    dsimp only at hopening
    rw [get_bind, hname, hnone] at hopening
    dsimp only at hopening
    rw [get_bind, if_neg (by simp [hauto])] at hopening
    exact absurd hopening throw_ne_ok

/-- Behind `var x`, the lines `x+=4` and `x += 4` are accepted alike, and of `x%=4` and
`x %= 4` only the second one is accepted. -/
theorem remainder_without_blanks :
    let c := declared (fresh "main") nameX
    Takes (fresh "main") ["var x".toList] c ∧ c.symbols.get? nameX.text = some .var ∧
      (∀ d ∈ c.config.stem.toList, ('%' :: headStop).contains d = false) ∧
      (Update.store .add).Takes ['4'] ∧ (Update.store .mod).Takes ['4'] ∧
      (∀ d, line "x+=4".toList c = .ok () d ↔ line "x += 4".toList c = .ok () d) ∧
      (∃ d, line "x += 4".toList c = .ok () d) ∧ (∃ d, line "x %= 4".toList c = .ok () d) ∧
      ∀ d, line "x%=4".toList c ≠ .ok () d := by
  intro c
  have htakes : Takes (fresh "main") [headed .var nameX.chars] c :=
    Grouped.takes_declared "main" nameX
  have hvar : c.symbols.get? nameX.text = some .var := Grouped.get?_declared "main" nameX
  have hstem : ∀ d ∈ c.config.stem.toList, ('%' :: headStop).contains d = false := by
    rw [show c.config.stem = "$" from rfl, show "$".toList = ['$'] from rfl]
    exact List.forall_mem_singleton.2 (by decide)
  have hfour : ∀ how, (Update.store how).Takes ['4'] := fun how => ⟨'4', [], rfl, by decide⟩
  have hpercent : c.symbols.get? (nameX.text ++ "%") = none := by
    refine (Symbols.get?_insert ..).trans ((if_neg (by decide)).trans ?_)
    cases hs : Symbols.initial.get? (nameX.text ++ "%") with
    | none => exact hs
    | some s =>
      obtain ⟨w, hw, _⟩ := Symbols.get?_initial_eq_some hs
      cases w <;> exact absurd hw (by decide)
  have hspaced : ∀ how, ∃ d, line (nameX.chars ++ ' ' :: Change.chars
      (.store how (.last (.number ⟨['4'], by decide, by decide⟩)))) c = .ok () d := fun how =>
    ⟨_, (line_assign_eq_ok_iff ((usual_fresh "main").declared nameX) _ _).2
      ⟨⟨hvar, by decide⟩, trivial, rfl⟩⟩
  refine ⟨htakes, hvar, hstem, hfour .add, hfour .mod, ?_, hspaced .add, hspaced .mod, ?_⟩
  · obtain ⟨tight, spaced, _, htight, hspaced, hsame, _⟩ :=
      blanks_around_assignment hstem hvar (hfour .add)
    cases htight
    cases hspaced
    exact hsame (.inl (by decide))
  · obtain ⟨tight, spaced, _, htight, _, _, hrejected⟩ :=
      blanks_around_assignment hstem hvar (hfour .mod)
    cases htight
    exact hrejected rfl hpercent (by decide)

end Compile

end ScriptMachine
