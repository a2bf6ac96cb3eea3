/-
  ScriptMachine.Proofs.Structured.Lexing

  Reading the text of structured scripts back.  A line of such a script is flat:
  it has no comment and no parenthesis outside a string literal.  So the lines of
  the source are the lines that were written (`Block.lines_source`), a line is one
  statement, and its words, expressions and assignments are found again.
-/

import ScriptMachine.Compiler.Script
import ScriptMachine.Proofs.Comments.Places
import ScriptMachine.Proofs.Structured.Placement

namespace ScriptMachine

/-! ## Sets of characters -/

/-- What holds of every character of a set holds of a character in it. -/
theorem all_of_contains {set : List Char} {p : Char → Bool} (h : set.all p = true) {c : Char}
    (hc : set.contains c = true) : p c = true :=
  List.all_eq_true.1 h c (by simpa using hc)

/-- A character with a property that no character of the set has is not in the set. -/
theorem not_contains_of_all {set : List Char} {p : Char → Bool}
    (h : set.all (fun d => !p d) = true) {c : Char} (hc : p c = true) :
    set.contains c = false := by
  rw [Bool.eq_false_iff]
  intro hmem
  have hnot := all_of_contains h hmem
  rw [hc] at hnot
  cases hnot

namespace Structured

/-! ## Flat texts -/

/-- A text on one line without comments, and without parentheses outside strings;
every string in it is closed. -/
inductive Flat : List Char → Prop where
  | nil : Flat []
  | char {c : Char} {cs : List Char}
    (hc : c ≠ '"' ∧ c ≠ '(' ∧ c ≠ ')' ∧ c ≠ '/' ∧ c ≠ '\n' ∧ c ≠ '\r') (h : Flat cs) :
    Flat (c :: cs)
  | slash {c : Char} {cs : List Char} (hc : c ≠ '/' ∧ c ≠ '*') (h : Flat (c :: cs)) :
    Flat ('/' :: c :: cs)
  | quoted {inside cs : List Char} (hi : ∀ c ∈ inside, c ≠ '"' ∧ c ≠ '\n' ∧ c ≠ '\r')
    (h : Flat cs) : Flat ('"' :: (inside ++ '"' :: cs))

/-- A character of the code that opens neither a string nor a comment. -/
theorem blankFrom_char {c : Char} (hquote : c ≠ '"') (hslash : c ≠ '/') (out cs : List Char) :
    Source.blankFrom .code out (c :: cs) = Source.blankFrom .code (c :: out) cs :=
  Source.blankFrom_code hquote (fun h => absurd h hslash) out

/-- Nothing of a flat text is blanked out. -/
theorem Flat.blankFrom {cs : List Char} (h : Flat cs) (out : List Char) :
    Source.blankFrom .code out cs = (cs.reverse ++ out, .code) := by
  induction h generalizing out with
  | nil => simp [Source.blankFrom]
  | @char c cs hc _ ih =>
    rw [blankFrom_char hc.1 hc.2.2.2.1, ih]
    simp
  | @slash c cs hc _ ih =>
    rw [Source.blankFrom_code (by decide) fun _ => by simpa using hc, ih]
    simp
  | @quoted inside cs hi _ ih =>
    have hinside : '"' ∉ inside := fun h => (hi _ h).1 rfl
    rw [Source.blankFrom, Source.blankFrom_literal hinside, Source.blankFrom, if_pos rfl, ih]
    simp

theorem Flat.one_line {cs : List Char} (h : Flat cs) : ∀ c ∈ cs, c ≠ '\n' ∧ c ≠ '\r' := by
  induction h with
  | nil => simp
  | char hc _ ih =>
    intro d hd
    rcases List.mem_cons.1 hd with rfl | hd
    · exact ⟨hc.2.2.2.2.1, hc.2.2.2.2.2⟩
    · exact ih d hd
  | slash hc _ ih =>
    intro d hd
    rcases List.mem_cons.1 hd with rfl | hd
    · decide
    · exact ih d hd
  | quoted hi _ ih =>
    intro d hd
    simp only [List.mem_cons, List.mem_append] at hd
    rcases hd with rfl | hd | rfl | hd
    · decide
    · exact (hi d hd).2
    · decide
    · exact ih d hd

/-! ## Flat texts as statements -/

/-- The inside of a string is taken character by character. -/
theorem foldlM_quoted (stem : String) {inside : List Char}
    (hi : ∀ c ∈ inside, c ≠ '"' ∧ c ≠ '\n' ∧ c ≠ '\r') (g : Source.Grouping)
    (hg : g.quoted = true) (cs : List Char) :
    ∃ column, (inside ++ '"' :: cs).foldlM (Source.Grouping.next stem) g =
      cs.foldlM (Source.Grouping.next stem)
        { g with quoted := false, current := '"' :: (inside.reverse ++ g.current), column } := by
  induction inside generalizing g with
  | nil =>
    refine ⟨g.column + '"'.utf8Size, ?_⟩
    simp [List.foldlM_cons, Source.Grouping.next, hg, bind, Except.bind]
  | cons c inside ih =>
    have hc := (hi c (by simp)).1
    obtain ⟨column, hcolumn⟩ := ih (fun d hd => hi d (by simp [hd]))
      { g with column := g.column + c.utf8Size, current := c :: g.current } hg
    refine ⟨column, ?_⟩
    rw [List.cons_append, List.foldlM_cons]
    have hnext : Source.Grouping.next stem g c =
        .ok { g with column := g.column + c.utf8Size, current := c :: g.current } := by
      simp [Source.Grouping.next, hg, hc]
    rw [hnext]
    simp only [bind, Except.bind]
    rw [hcolumn]
    simp

/-- A flat text goes into the current statement as it is. -/
theorem Flat.foldlM {cs : List Char} (h : Flat cs) (stem : String) (g : Source.Grouping)
    (hg : g.quoted = false) :
    ∃ column, cs.foldlM (Source.Grouping.next stem) g =
      .ok { g with current := cs.reverse ++ g.current, column } := by
  have hnext : ∀ (g : Source.Grouping) (c : Char), g.quoted = false → c ≠ '"' → c ≠ '(' →
      c ≠ ')' → Source.Grouping.next stem g c =
        .ok { g with column := g.column + c.utf8Size, current := c :: g.current } := by
    intro g c hg hquote hopen hclose
    simp [Source.Grouping.next, hg, hquote, hopen, hclose]
  induction h generalizing g with
  | nil => exact ⟨g.column, rfl⟩
  | @char c cs hc _ ih =>
    obtain ⟨column, hcolumn⟩ :=
      ih { g with column := g.column + c.utf8Size, current := c :: g.current } hg
    refine ⟨column, ?_⟩
    rw [List.foldlM_cons, hnext g c hg hc.1 hc.2.1 hc.2.2.1]
    simp only [bind, Except.bind]
    rw [hcolumn]
    simp
  | @slash c cs hc _ ih =>
    obtain ⟨column, hcolumn⟩ :=
      ih { g with column := g.column + '/'.utf8Size, current := '/' :: g.current } hg
    refine ⟨column, ?_⟩
    rw [List.foldlM_cons, hnext g '/' hg (by decide) (by decide) (by decide)]
    simp only [bind, Except.bind]
    rw [hcolumn]
    simp
  | @quoted inside cs hi _ ih =>
    obtain ⟨column, hcolumn⟩ := foldlM_quoted stem hi
      { g with column := g.column + '"'.utf8Size, quoted := true, current := '"' :: g.current }
      rfl cs
    obtain ⟨column', hcolumn'⟩ := ih
      { g with quoted := false, current := '"' :: (inside.reverse ++ '"' :: g.current), column } rfl
    refine ⟨column', ?_⟩
    rw [List.foldlM_cons]
    have hone : Source.Grouping.next stem g '"' = .ok
        { g with column := g.column + '"'.utf8Size, quoted := true, current := '"' :: g.current } := by
      simp [Source.Grouping.next, hg]
    rw [hone]
    simp only [bind, Except.bind]
    rw [hcolumn, hcolumn', hg]
    simp

/-- A flat text is one statement. -/
theorem Flat.statements {cs : List Char} (h : Flat cs) (stem : String) :
    Source.statements stem cs = .ok [cs] := by
  obtain ⟨column, hcolumn⟩ := h.foldlM stem {} rfl
  unfold Source.statements
  rw [hcolumn]
  simp [bind, Except.bind, pure, Except.pure]

/-! ## Lines of a source -/

/-- A flat line that does not end in a blank. -/
def IsLine (cs : List Char) : Prop :=
  Flat cs ∧ ∃ front c, cs = front ++ [c] ∧ Text.isBlank c = false

theorem cleanLine_of_isLine {line : List Char} (h : IsLine line) :
    Source.cleanLine false line = (line, false) := by
  obtain ⟨hflat, front, c, rfl, hc⟩ := h
  unfold Source.cleanLine
  rw [if_neg (by simp), hflat.blankFrom]
  simp [hc]

/-- Lines of a script are the lines of every source with these rows. -/
theorem lines_of_splits {source : String} {lines : List (List Char)}
    (hsplits : Source.Splits source.toList lines) (h : ∀ l ∈ lines, IsLine l) :
    Source.lines source = lines := by
  rw [Source.lines, hsplits.eq_split]
  exact Source.cleanFrom_cleaned (fun l hl => cleanLine_of_isLine (h l hl)) []

/-! ## Words -/

/-- The characters with a meaning of their own in a line. -/
def marks : List Char :=
  ['"', '(', ')', '[', ']', ',', '#'] ++ Operator.chars

/-- Characters that stand for themselves wherever they are in a line. -/
def isOrdinary (c : Char) : Bool :=
  !Text.isBlank c && !marks.contains c

/-- A word: ordinary characters, at least one. -/
def IsWord (w : List Char) : Prop :=
  w ≠ [] ∧ ∀ c ∈ w, isOrdinary c = true

theorem isBlank_of_ascii {c : Char} (h : 33 ≤ c.toNat) (h' : c.toNat ≤ 126) :
    Text.isBlank c = false := by
  simp only [Text.isBlank, Bool.or_eq_false_iff, Bool.and_eq_false_iff, decide_eq_false_iff_not,
    beq_eq_false_iff_ne]
  omega

theorem toNat_of_isAlpha {c : Char} (h : c.isAlpha = true) : 65 ≤ c.toNat ∧ c.toNat ≤ 122 := by
  have hor : (c.isUpper || c.isLower) = true := h
  rcases Bool.or_eq_true_iff.1 hor with hcase | hcase
  · have hrange : 65 ≤ c.toNat ∧ c.toNat ≤ 90 := of_decide_eq_true hcase
    omega
  · obtain ⟨hlow, hhigh⟩ := Bool.and_eq_true_iff.1 hcase
    have hlow' : 97 ≤ c.toNat := of_decide_eq_true hlow
    have hhigh' : c.toNat ≤ 122 := of_decide_eq_true hhigh
    omega

theorem toNat_of_isDigit {c : Char} (h : c.isDigit = true) : 48 ≤ c.toNat ∧ c.toNat ≤ 57 := by
  simp only [Char.isDigit, Bool.and_eq_true, decide_eq_true_eq] at h
  exact ⟨h.1, h.2⟩

theorem isOrdinary_of_isLetter {c : Char} (h : isLetter c = true) : isOrdinary c = true := by
  have hblank : Text.isBlank c = false := by
    have hcases := h
    simp only [isLetter, Bool.or_eq_true, Bool.and_eq_true] at hcases
    rcases hcases with halpha | ⟨_, hblank⟩
    · have hbounds := toNat_of_isAlpha halpha
      exact isBlank_of_ascii (by omega) (by omega)
    · simpa using hblank
  have hmark : marks.contains c = false := not_contains_of_all (by decide) h
  rw [isOrdinary, hblank, hmark]
  rfl

theorem isOrdinary_of_isDigit {c : Char} (h : c.isDigit = true) : isOrdinary c = true := by
  have hbounds := toNat_of_isDigit h
  have hmark : marks.contains c = false := not_contains_of_all (by decide) h
  rw [isOrdinary, isBlank_of_ascii (by omega) (by omega), hmark]
  rfl

theorem Name.isWord (x : Name) : IsWord x.chars := by
  refine ⟨by simp [Name.chars], fun c hc => ?_⟩
  rcases List.mem_cons.1 hc with rfl | hc
  · exact isOrdinary_of_isLetter x.letter
  · rcases Bool.or_eq_true_iff.1 (x.alphanumeric c hc) with h | h
    · exact isOrdinary_of_isLetter h
    · exact isOrdinary_of_isDigit h

theorem Digits.isWord (d : Digits) : IsWord d.chars := by
  have h := d.digits
  simp only [Text.isDigits, Bool.and_eq_true, Bool.not_eq_true', List.all_eq_true] at h
  refine ⟨by intro hnil; simp [hnil] at h, fun c hc => isOrdinary_of_isDigit (h.2 c hc)⟩

theorem isWord_spelling (w : Word) : IsWord w.spelling.toList := by
  cases w <;> exact ⟨by decide, List.all_eq_true.1 (by decide)⟩

/-! ## Lines of a script -/

/-- A character that opens neither a string, a group nor a comment. -/
def isPlain (c : Char) : Bool :=
  !(['"', '(', ')', '/', '\n', '\r'].contains c)

theorem Flat.plain_append {w cs : List Char} (hw : ∀ c ∈ w, isPlain c = true) (h : Flat cs) :
    Flat (w ++ cs) := by
  induction w with
  | nil => exact h
  | cons c w ih =>
    have hc := hw c (by simp)
    refine .char ?_ (ih fun d hd => hw d (by simp [hd]))
    refine ⟨?_, ?_, ?_, ?_, ?_, ?_⟩ <;> (rintro rfl; revert hc; decide)

theorem Flat.word_append {w cs : List Char} (hw : IsWord w) (h : Flat cs) : Flat (w ++ cs) := by
  refine Flat.plain_append (fun c hc => ?_) h
  rw [isPlain, Bool.not_eq_true']
  exact not_contains_of_all (by decide) (hw.2 c hc)

theorem Flat.blank {cs : List Char} (h : Flat cs) : Flat (' ' :: cs) :=
  .char (by decide) h

/-- A sign in front of a flat text: only the sign of a division could begin a comment. -/
theorem Flat.sign_append {c : Char} {cs : List Char} (h : Flat (c :: cs)) (sign : Sign)
    (hc : c ≠ '/' ∧ c ≠ '*') : Flat (sign.1.1 ++ c :: cs) := by
  have hall : Operator.spellings.all (fun p => p.1 == ['/'] || p.1.all isPlain) = true := by decide
  have hsign := List.all_eq_true.1 hall sign.1 sign.2
  rw [Bool.or_eq_true, beq_iff_eq, List.all_eq_true] at hsign
  rcases hsign with hslash | hplain
  · rw [hslash]
    exact .slash hc h
  · exact Flat.plain_append hplain h

theorem Flat.sign {cs : List Char} (h : Flat cs) (sign : Sign) :
    Flat (sign.1.1 ++ ' ' :: cs) :=
  h.blank.sign_append sign (by decide)

theorem isLine_plain {w : List Char} {c : Char} (hw : ∀ d ∈ w ++ [c], isPlain d = true)
    (hc : Text.isBlank c = false) : IsLine (w ++ [c]) := by
  have hflat := Flat.plain_append hw .nil
  rw [List.append_nil] at hflat
  exact ⟨hflat, w, c, rfl, hc⟩

theorem IsLine.append {w cs : List Char} (h : IsLine cs) (hflat : Flat (w ++ cs)) :
    IsLine (w ++ cs) := by
  obtain ⟨_, front, c, rfl, hc⟩ := h
  exact ⟨hflat, w ++ front, c, by simp, hc⟩

theorem IsLine.blank_append {w cs : List Char} (hw : Flat cs → Flat (w ++ ' ' :: cs))
    (h : IsLine cs) : IsLine (w ++ ' ' :: cs) := by
  obtain ⟨hflat, front, c, rfl, hc⟩ := h
  exact ⟨hw hflat, w ++ ' ' :: front, c, by simp, hc⟩

theorem IsWord.isLine {w : List Char} (hw : IsWord w) : IsLine w := by
  have hflat := Flat.word_append hw .nil
  rw [List.append_nil] at hflat
  refine ⟨hflat, w.dropLast, w.getLast hw.1, (List.dropLast_append_getLast hw.1).symm, ?_⟩
  have hord := hw.2 _ (List.getLast_mem hw.1)
  rw [isOrdinary, Bool.and_eq_true] at hord
  simpa using hord.1

theorem Term.flat_append (t : Term) {cs : List Char} (h : Flat cs) : Flat (t.chars ++ cs) := by
  cases t with
  | number d => exact Flat.word_append d.isWord h
  | var x => exact Flat.word_append x.isWord h
  | text q =>
    have hq : Term.chars (.text q) ++ cs = '"' :: (q.chars ++ '"' :: cs) := by simp [Term.chars]
    rw [hq]
    exact .quoted q.inside h

theorem Term.isLine (t : Term) : IsLine t.chars := by
  cases t with
  | number d => exact d.isWord.isLine
  | var x => exact x.isWord.isLine
  | text q => exact ⟨.quoted q.inside .nil, '"' :: q.chars, '"', rfl, by decide⟩

theorem Expr.isLine (e : Expr) : IsLine e.chars := by
  induction e with
  | last t => exact t.isLine
  | more t sign rest ih =>
    refine IsLine.blank_append (fun h => t.flat_append h.blank) ?_
    exact IsLine.blank_append (fun h => h.sign sign) ih

theorem Change.isLine (change : Change) : IsLine change.chars := by
  cases change with
  | store how e =>
    refine IsLine.blank_append (fun h => ?_) e.isLine
    cases how with
    | div => exact .slash (by decide) (.char (by decide) h.blank)
    | _ => exact Flat.plain_append (List.all_eq_true.1 (by decide)) h.blank
  | increment =>
    exact ⟨.char (by decide) (.char (by decide) .nil), ['+'], '+', rfl, by decide⟩
  | decrement =>
    exact ⟨.char (by decide) (.char (by decide) .nil), ['-'], '-', rfl, by decide⟩

theorem isLine_headed (w : Word) {cs : List Char} (h : IsLine cs) : IsLine (headed w cs) :=
  IsLine.blank_append (fun h => Flat.word_append (isWord_spelling w) h.blank) h

theorem isLine_alone (w : Word) : IsLine (alone w) :=
  (isWord_spelling w).isLine

theorem Name.isLine_append (x : Name) {cs : List Char} (h : IsLine cs) :
    IsLine (x.chars ++ ' ' :: cs) :=
  IsLine.blank_append (fun h => Flat.word_append x.isWord h.blank) h

mutual

theorem Stmt.isLine : ∀ {a : Stmt}, ∀ l ∈ a.lines, IsLine l
  | .declare x none, l, hl => by
    obtain rfl := List.mem_singleton.1 hl
    exact isLine_headed _ x.isWord.isLine
  | .declare x (some change), l, hl => by
    obtain rfl := List.mem_singleton.1 hl
    exact isLine_headed _ (x.isLine_append change.isLine)
  | .assign x change, l, hl => by
    obtain rfl := List.mem_singleton.1 hl
    exact x.isLine_append change.isLine
  | .branch test body others, l, hl => by
    simp only [Stmt.lines, List.mem_cons, List.mem_append, List.not_mem_nil, or_false] at hl
    rcases hl with rfl | (hl | hl) | rfl
    · exact isLine_headed _ test.isLine
    · exact Block.isLine l hl
    · exact Branches.isLine l hl
    · exact isLine_alone _
  | .loop test body, l, hl => by
    simp only [Stmt.lines, List.mem_cons, List.mem_append, List.not_mem_nil, or_false] at hl
    rcases hl with rfl | hl | rfl
    · exact isLine_headed _ test.isLine
    · exact Block.isLine l hl
    · exact isLine_alone _
  | .exit, l, hl => by
    obtain rfl := List.mem_singleton.1 hl
    exact isLine_alone _
  | .choose value clauses, l, hl => by
    simp only [Stmt.lines, List.mem_cons, List.mem_append, List.not_mem_nil, or_false] at hl
    rcases hl with rfl | hl | rfl
    · exact isLine_headed _ value.isLine
    · exact Clauses.isLine l hl
    · exact isLine_alone _
  | .leave, l, hl => by
    obtain rfl := List.mem_singleton.1 hl
    exact isLine_alone _

theorem Block.isLine : ∀ {b : Block}, ∀ l ∈ b.lines, IsLine l
  | .nil, l, hl => by cases hl
  | .cons a rest, l, hl => by
    rw [Block.lines, List.mem_append] at hl
    rcases hl with hl | hl
    · exact Stmt.isLine l hl
    · exact Block.isLine l hl

theorem Branches.isLine : ∀ {b : Branches}, ∀ l ∈ b.lines, IsLine l
  | .nil, l, hl => by cases hl
  | .otherwise body, l, hl => by
    rw [Branches.lines, List.mem_cons] at hl
    rcases hl with rfl | hl
    · exact isLine_alone _
    · exact Block.isLine l hl
  | .also test body others, l, hl => by
    simp only [Branches.lines, List.mem_cons, List.mem_append] at hl
    rcases hl with rfl | hl | hl
    · exact isLine_headed _ test.isLine
    · exact Block.isLine l hl
    · exact Branches.isLine l hl

theorem Clauses.isLine : ∀ {b : Clauses}, ∀ l ∈ b.lines, IsLine l
  | .nil, l, hl => by cases hl
  | .case value body rest, l, hl => by
    simp only [Clauses.lines, List.mem_cons, List.mem_append] at hl
    rcases hl with rfl | hl | hl
    · exact isLine_headed _ value.isLine
    · exact Block.isLine l hl
    · exact Clauses.isLine l hl
  | .default body rest, l, hl => by
    simp only [Clauses.lines, List.mem_cons, List.mem_append] at hl
    rcases hl with rfl | hl | hl
    · exact isLine_alone _
    · exact Block.isLine l hl
    · exact Clauses.isLine l hl

end

/-- The lines of a script are read as they were written. -/
theorem Block.lines_source (b : Block) : Source.lines b.source = b.lines := by
  refine lines_of_splits ?_ Block.isLine
  rw [Block.source, String.toList_ofList]
  exact Source.splits_joined fun l hl => (Block.isLine l hl).1.one_line

end Structured

end ScriptMachine
