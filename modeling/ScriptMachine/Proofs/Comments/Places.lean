/-
  ScriptMachine.Proofs.Comments.Places

  Comments are removed and everything else stays in its place.  The lines of a source are
  the rows of its reading as they are shown, without the blanks at their ends; no comment
  marker is left outside the string literals, and so the lines, each with a line feed
  behind it, are a source with the same lines (`lines_keep_places`).
-/

import Mathlib.Data.List.DropRight
import ScriptMachine.Proofs.Comments.Regions

namespace ScriptMachine.Source

variable {inComment open_ : Bool} {raw body cs : List Char} {regions : List Region}

-- ============================================================================
-- Rows as they are shown
-- ============================================================================

theorem Row.shown_cons (region : Region) (c : Char) :
    Row.shown ⟨c :: cs, region :: regions⟩ = region.shows c :: Row.shown ⟨cs, regions⟩ := rfl

theorem Row.shown_append (region : Region) (front cs : List Char) (regions : List Region) :
    Row.shown ⟨front ++ cs, List.replicate front.length region ++ regions⟩ =
      front.map region.shows ++ Row.shown ⟨cs, regions⟩ := by
  induction front with
  | nil => rfl
  | cons c front ih =>
    rw [List.cons_append, List.length_cons, List.replicate_succ, List.cons_append, shown_cons, ih,
      List.map_cons, List.cons_append]

theorem Row.shown_replicate (region : Region) (front : List Char) :
    Row.shown ⟨front, List.replicate front.length region⟩ = front.map region.shows := by
  have h := Row.shown_append region front [] []
  simpa [Row.shown] using h

theorem Region.map_shows_quoted (front : List Char) : front.map Region.quoted.shows = front :=
  List.map_id front

theorem Region.map_shows_comment (front : List Char) :
    front.map Region.comment.shows = List.replicate front.length ' ' :=
  List.map_const'

theorem Row.shown_literal : Row.shown ⟨'"' :: (body ++ '"' :: cs),
    List.replicate (body.length + 2) .quoted ++ regions⟩ =
      '"' :: (body ++ '"' :: Row.shown ⟨cs, regions⟩) := by
  have h := Row.shown_append .quoted ('"' :: (body ++ ['"'])) cs regions
  rw [Region.map_shows_quoted] at h
  simpa using h

theorem Row.shown_unclosed : Row.shown ⟨'"' :: body, List.replicate (body.length + 1) .quoted⟩ =
    '"' :: body := by
  have h := Row.shown_replicate .quoted ('"' :: body)
  rwa [Region.map_shows_quoted] at h

theorem Row.shown_closes : Row.shown ⟨body ++ '*' :: '/' :: cs,
    List.replicate (body.length + 2) .comment ++ regions⟩ =
      List.replicate (body.length + 2) ' ' ++ Row.shown ⟨cs, regions⟩ := by
  have h := Row.shown_append .comment (body ++ ['*', '/']) cs regions
  rw [Region.map_shows_comment] at h
  simpa using h

theorem Row.shown_stays : Row.shown ⟨body, List.replicate body.length .comment⟩ =
    List.replicate body.length ' ' :=
  (Row.shown_replicate .comment body).trans (Region.map_shows_comment body)

-- ============================================================================
-- Cleaning a row as it is read
-- ============================================================================

/-- The region in which a row starts. -/
def startRegion (inComment : Bool) : Region :=
  if inComment then .comment else .code

/-- A character of the code that opens neither a string nor a comment. -/
theorem blankFrom_code {c : Char} (hquote : c ≠ '"')
    (hmarker : c = '/' → cs.head? ≠ some '/' ∧ cs.head? ≠ some '*') (out : List Char) :
    blankFrom .code out (c :: cs) = blankFrom .code (c :: out) cs := by
  rw [blankFrom]
  · exact hquote
  · rintro after hc rfl
    exact (hmarker hc).1 rfl
  · rintro after hc rfl
    exact (hmarker hc).2 rfl

/-- The inside of a string stays as it is. -/
theorem blankFrom_literal (hbody : '"' ∉ body) (out : List Char) :
    blankFrom .quoted out (body ++ cs) = blankFrom .quoted (body.reverse ++ out) cs := by
  induction body generalizing out with
  | nil => rfl
  | cons c body ih =>
    obtain ⟨hc, hrest⟩ := not_or.1 (List.mem_cons.not.1 hbody)
    rw [List.cons_append, blankFrom, if_neg (Ne.symm hc), ih hrest]
    simp

/-- A comment is blanked out up to its closing marker. -/
theorem blankFrom_comment (hbody : ¬ ['*', '/'] <:+: body ++ cs.take 1) (out : List Char) :
    blankFrom .comment out (body ++ cs) =
      blankFrom .comment (List.replicate body.length ' ' ++ out) cs := by
  induction body generalizing out with
  | nil => rfl
  | cons c body ih =>
    have hrest : ¬ ['*', '/'] <:+: body ++ cs.take 1 :=
      fun h => hbody (h.trans (List.suffix_cons c _).isInfix)
    have hhere : ∀ after, c = '*' → body ++ cs ≠ '/' :: after := by
      rintro after rfl hafter
      refine hbody (List.IsPrefix.isInfix ?_)
      cases body with
      | nil => rw [List.nil_append] at hafter; simp [hafter]
      | cons d body => simp [(List.cons.inj hafter).1]
    rw [List.cons_append, blankFrom]
    · rw [ih hrest, List.length_cons, List.replicate_succ']
      simp
    · exact fun after hc hafter => hhere after hc hafter

/-- Cleaning shows what is read of a row, and ends in a block comment where reading does. -/
theorem Reads.blankFrom (h : Reads inComment raw regions open_) (out : List Char) :
    ∃ last, blankFrom (startRegion inComment) out raw =
      ((Row.shown ⟨raw, regions⟩).reverse ++ out, last) ∧ (last = .comment ↔ open_ = true) := by
  induction h generalizing out with
  | nil => exact ⟨.code, rfl, by simp⟩
  | code hquote hmarker _ ih =>
    obtain ⟨last, hlast, hopen⟩ := ih (_ :: out)
    refine ⟨last, ?_, hopen⟩
    rw [startRegion, if_neg Bool.false_ne_true] at hlast ⊢
    rw [blankFrom_code hquote hmarker, hlast, Row.shown_cons]
    simp [Region.shows]
  | @literal body cs _ _ hbody _ ih =>
    obtain ⟨last, hlast, hopen⟩ := ih ('"' :: (body.reverse ++ '"' :: out))
    refine ⟨last, ?_, hopen⟩
    rw [startRegion, if_neg Bool.false_ne_true] at hlast ⊢
    rw [Source.blankFrom, blankFrom_literal hbody, Source.blankFrom, if_pos rfl, hlast,
      Row.shown_literal]
    simp
  | @unclosed body hbody =>
    have hall : Source.blankFrom .quoted ('"' :: out) (body ++ []) = _ := blankFrom_literal hbody _
    rw [List.append_nil] at hall
    refine ⟨.quoted, ?_, by simp⟩
    rw [startRegion, if_neg Bool.false_ne_true, Source.blankFrom, hall, Source.blankFrom,
      Row.shown_unclosed]
    simp
  | remark cs => exact ⟨.code, rfl, by simp⟩
  | opens _ ih =>
    obtain ⟨last, hlast, hopen⟩ := ih (' ' :: ' ' :: out)
    refine ⟨last, ?_, hopen⟩
    rw [startRegion, if_pos rfl] at hlast
    rw [startRegion, if_neg Bool.false_ne_true, Source.blankFrom, hlast]
    simp [Row.shown_cons, Region.shows]
  | @closes body cs _ _ hbody _ ih =>
    obtain ⟨last, hlast, hopen⟩ := ih (' ' :: ' ' :: (List.replicate body.length ' ' ++ out))
    refine ⟨last, ?_, hopen⟩
    rw [startRegion, if_neg Bool.false_ne_true] at hlast
    rw [startRegion, if_pos rfl, blankFrom_comment (by simpa using hbody), Source.blankFrom, hlast,
      Row.shown_closes]
    simp [List.replicate_succ']
  | @stays body hbody =>
    have hall : Source.blankFrom .comment out (body ++ []) = _ :=
      blankFrom_comment (by simpa using hbody) out
    rw [List.append_nil] at hall
    refine ⟨.comment, ?_, by simp⟩
    rw [startRegion, if_pos rfl, hall, Source.blankFrom, Row.shown_stays]
    simp

theorem Reads.cleanLine (h : Reads inComment raw regions open_) :
    cleanLine inComment raw = (Text.trimEnd (Row.shown ⟨raw, regions⟩), open_) := by
  obtain ⟨last, hlast, hopen⟩ := h.blankFrom []
  unfold Source.cleanLine
  rw [startRegion] at hlast
  rw [hlast]
  simp [Text.trimEnd, hopen]

theorem ReadsAll.cleanFrom {rows : List Row} (h : ReadsAll inComment rows open_)
    (done : List (List Char)) : cleanFrom inComment done (rows.map Row.raw) =
      done.reverse ++ rows.map fun row => Text.trimEnd row.shown := by
  induction h generalizing done with
  | nil => simp [Source.cleanFrom]
  | @cons inComment _ _ row rows h _ ih =>
    rw [List.map_cons, Source.cleanFrom, h.cleanLine]
    dsimp only
    rw [ih]
    simp

theorem ReadsAll.of_mem {rows : List Row} (h : ReadsAll inComment rows open_) {row : Row}
    (hrow : row ∈ rows) : ∃ before after, Reads before row.raw row.regions after := by
  induction h with
  | nil => cases hrow
  | cons h _ ih =>
    rcases List.mem_cons.1 hrow with rfl | hrow
    · exact ⟨_, _, h⟩
    · exact ih hrow

/-- The lines of a source are the rows of any of its readings. -/
theorem IsReading.lines {source : String} {rows : List Row}
    (h : IsReading source.toList rows open_) :
    lines source = rows.map fun row => Text.trimEnd row.shown := by
  rw [Source.lines, h.splits.eq_split, h.reads.cleanFrom, List.reverse_nil, List.nil_append]

-- ============================================================================
-- No comment markers
-- ============================================================================

/-- Behind an even number of quotes the text has no comment marker, where `n` quotes stand
in front of the text. -/
def UnmarkedFrom (n : Nat) (cs : List Char) : Prop :=
  ∀ front mark back, cs = front ++ '/' :: mark :: back → mark = '/' ∨ mark = '*' →
    (n + front.count '"') % 2 = 1

/-- Outside its string literals the text has no comment marker: an odd number of quotes
stands in front of each. -/
abbrev Unmarked (cs : List Char) : Prop :=
  UnmarkedFrom 0 cs

theorem unmarkedFrom_nil (n : Nat) : UnmarkedFrom n [] := by
  intro front mark back h
  simp at h

theorem unmarkedFrom_cons_iff {n : Nat} {c : Char} : UnmarkedFrom n (c :: cs) ↔
    (c = '/' → cs.head? = some '/' ∨ cs.head? = some '*' → n % 2 = 1) ∧
      UnmarkedFrom (n + if c = '"' then 1 else 0) cs := by
  constructor
  · intro h
    refine ⟨fun hc hhead => ?_, fun front mark back hcs hmark => ?_⟩
    · obtain ⟨mark, hmark, hhead⟩ : ∃ mark, (mark = '/' ∨ mark = '*') ∧ cs.head? = some mark := by
        rcases hhead with hhead | hhead
        · exact ⟨_, .inl rfl, hhead⟩
        · exact ⟨_, .inr rfl, hhead⟩
      obtain ⟨back, rfl⟩ := List.head?_eq_some_iff.1 hhead
      exact h [] mark back (by rw [hc]; rfl) hmark
    · have hodd := h (c :: front) mark back (by rw [hcs]; rfl) hmark
      rw [List.count_cons] at hodd
      simp only [beq_iff_eq] at hodd
      omega
  · rintro ⟨hhere, hlater⟩ front mark back hcs hmark
    cases front with
    | nil =>
      obtain ⟨rfl, rfl⟩ := List.cons.inj hcs
      refine hhere rfl ?_
      rcases hmark with rfl | rfl <;> simp
    | cons d front =>
      obtain ⟨rfl, rfl⟩ := List.cons.inj hcs
      have hodd := hlater front mark back rfl hmark
      rw [List.count_cons]
      simp only [beq_iff_eq]
      omega

theorem UnmarkedFrom.of_append {n : Nat} {front back : List Char}
    (h : UnmarkedFrom n (front ++ back)) : UnmarkedFrom n front := by
  intro before mark after hfront hmark
  refine h before mark (after ++ back) ?_ hmark
  rw [hfront]
  simp

/-- What stands inside a literal is no marker. -/
theorem unmarkedFrom_literal {n : Nat} (hodd : n % 2 = 1) (hbody : '"' ∉ body)
    (h : UnmarkedFrom n cs) : UnmarkedFrom n (body ++ cs) := by
  induction body with
  | nil => exact h
  | cons c body ih =>
    obtain ⟨hc, hrest⟩ := not_or.1 (List.mem_cons.not.1 hbody)
    rw [List.cons_append, unmarkedFrom_cons_iff, if_neg (Ne.symm hc)]
    exact ⟨fun _ _ => hodd, ih hrest⟩

theorem unmarkedFrom_blanks {n : Nat} (k : Nat) (h : UnmarkedFrom n cs) :
    UnmarkedFrom n (List.replicate k ' ' ++ cs) := by
  induction k with
  | zero => exact h
  | succ k ih =>
    rw [List.replicate_succ, List.cons_append, unmarkedFrom_cons_iff]
    exact ⟨fun hc => absurd hc (by decide), ih⟩

/-- A marker character that is shown first stands first in the row. -/
theorem Reads.head?_shown (h : Reads false raw regions open_) {c : Char} (hc : c ≠ ' ')
    (hhead : (Row.shown ⟨raw, regions⟩).head? = some c) : raw.head? = some c := by
  cases h with
  | nil => exact hhead
  | code => exact hhead
  | literal => rwa [Row.shown_literal] at hhead
  | unclosed => rwa [Row.shown_unclosed] at hhead
  | remark => cases hhead
  | opens =>
    rw [Row.shown_cons] at hhead
    exact absurd (Option.some.inj hhead).symm hc

/-- A row as it is shown has no comment marker outside its literals. -/
theorem Reads.unmarked (h : Reads inComment raw regions open_) {n : Nat} (heven : n % 2 = 0) :
    UnmarkedFrom n (Row.shown ⟨raw, regions⟩) := by
  induction h generalizing n with
  | nil => exact unmarkedFrom_nil n
  | code hquote hmarker h ih =>
    rw [Row.shown_cons, unmarkedFrom_cons_iff]
    refine ⟨fun hc hhead => ?_, ?_⟩
    · obtain ⟨hslash, hstar⟩ := hmarker hc
      rcases hhead with hhead | hhead
      · exact absurd (h.head?_shown (by decide) hhead) hslash
      · exact absurd (h.head?_shown (by decide) hhead) hstar
    · rw [if_neg (by simpa [Region.shows] using hquote)]
      exact ih heven
  | literal hbody _ ih =>
    rw [Row.shown_literal, unmarkedFrom_cons_iff]
    refine ⟨fun hc => absurd hc (by decide), unmarkedFrom_literal (by simp; omega) hbody ?_⟩
    rw [unmarkedFrom_cons_iff]
    exact ⟨fun hc => absurd hc (by decide), ih (by simp; omega)⟩
  | @unclosed body hbody =>
    have hinside : UnmarkedFrom (n + 1) (body ++ []) :=
      unmarkedFrom_literal (by omega) hbody (unmarkedFrom_nil _)
    rw [Row.shown_unclosed, unmarkedFrom_cons_iff]
    rw [List.append_nil] at hinside
    exact ⟨fun hc => absurd hc (by decide), hinside⟩
  | remark => exact unmarkedFrom_nil n
  | opens _ ih => exact unmarkedFrom_blanks 2 (ih heven)
  | closes _ _ ih =>
    rw [Row.shown_closes]
    exact unmarkedFrom_blanks _ (ih heven)
  | @stays body =>
    have hblanks : UnmarkedFrom n (List.replicate body.length ' ' ++ []) :=
      unmarkedFrom_blanks _ (unmarkedFrom_nil n)
    rw [List.append_nil] at hblanks
    rw [Row.shown_stays]
    exact hblanks

/-- A text without comment markers stays as it is. -/
theorem UnmarkedFrom.blankFrom {n : Nat} (h : UnmarkedFrom n cs) (out : List Char) :
    ∃ last, blankFrom (if n % 2 = 1 then .quoted else .code) out cs = (cs.reverse ++ out, last) ∧
      last ≠ .comment := by
  induction cs generalizing n out with
  | nil =>
    refine ⟨_, by rw [Source.blankFrom]; rfl, ?_⟩
    split <;> simp
  | cons c cs ih =>
    obtain ⟨hhere, hlater⟩ := unmarkedFrom_cons_iff.1 h
    obtain ⟨last, hlast, hopen⟩ := ih hlater (c :: out)
    refine ⟨last, ?_, hopen⟩
    have hone : Source.blankFrom (if n % 2 = 1 then .quoted else .code) out (c :: cs) =
        Source.blankFrom (if (n + if c = '"' then 1 else 0) % 2 = 1 then .quoted else .code)
          (c :: out) cs := by
      by_cases hodd : n % 2 = 1
      · rw [if_pos hodd, Source.blankFrom]
        by_cases hc : c = '"'
        · rw [if_pos hc, if_pos hc, if_neg (by omega)]
        · rw [if_neg hc, if_neg hc, if_pos (by omega)]
      · rw [if_neg hodd]
        by_cases hc : c = '"'
        · rw [if_pos hc, if_pos (by omega), hc, Source.blankFrom]
        · rw [if_neg hc, if_neg (by omega), blankFrom_code hc]
          intro hslash
          exact ⟨fun hhead => hodd (hhere hslash (.inl hhead)),
            fun hhead => hodd (hhere hslash (.inr hhead))⟩
    rw [hone, hlast]
    simp

-- ============================================================================
-- Lines
-- ============================================================================

/-- Lines as a source, each with a line feed behind it. -/
def joined (lines : List (List Char)) : List Char :=
  lines.flatMap fun line => line ++ ['\n']

theorem splits_joined {lines : List (List Char)} (h : ∀ line ∈ lines, OneLine line) :
    Splits (joined lines) lines := by
  induction lines with
  | nil => exact .nil
  | cons line lines ih =>
    obtain ⟨hline, hrest⟩ := List.forall_mem_cons.1 h
    have hone : joined (line :: lines) = line ++ '\n' :: joined lines := by simp [joined]
    rw [hone]
    exact .feed hline (ih hrest)

theorem OneLine.shown {row : Row} (h : OneLine row.raw) : OneLine (Text.trimEnd row.shown) := by
  have hshown : OneLine row.shown := by
    intro c hc
    obtain ⟨region, d, hd, rfl⟩ : ∃ region : Region, ∃ d ∈ row.raw, region.shows d = c := by
      obtain ⟨i, hi, rfl⟩ := List.getElem_of_mem hc
      exact ⟨_, _, List.getElem_mem _, List.getElem_zipWith.symm⟩
    unfold Region.shows
    split
    · decide
    · exact h d hd
  obtain ⟨blanks, _, heq⟩ := Text.trimEnd_append_blanks row.shown
  intro c hc
  exact hshown c (by rw [heq]; exact List.mem_append_left _ hc)

theorem trimEnd_trimEnd (cs : List Char) : Text.trimEnd (Text.trimEnd cs) = Text.trimEnd cs := by
  rw [Text.trimEnd, Text.trimEnd, List.reverse_reverse, List.dropWhile_idempotent]

/-- Lines that are cleaned already stay as they are. -/
theorem cleanFrom_cleaned {lines : List (List Char)}
    (h : ∀ line ∈ lines, cleanLine false line = (line, false)) (done : List (List Char)) :
    cleanFrom false done lines = done.reverse ++ lines := by
  induction lines generalizing done with
  | nil => simp [cleanFrom]
  | cons line lines ih =>
    obtain ⟨hline, hrest⟩ := List.forall_mem_cons.1 h
    rw [cleanFrom, hline]
    dsimp only
    rw [ih hrest]
    simp

/-- A line without comment markers that ends in no blank is cleaned already. -/
theorem Unmarked.cleaned {line : List Char} (h : Unmarked line) (htrim : Text.trimEnd line = line) :
    cleanLine false line = (line, false) := by
  obtain ⟨last, hlast, hopen⟩ := h.blankFrom []
  rw [if_neg (by decide), List.append_nil] at hlast
  rw [cleanLine, if_neg Bool.false_ne_true, hlast]
  exact Prod.ext htrim (decide_eq_false hopen)

/-- The lines of a source keep the rows and the places of all characters.  The source has a
reading, as rows and the regions of their characters, and the lines are the rows of any
such reading up to trailing blanks: cut at the `//` that ends the row, every character of a
block comment replaced by one blank, and every other character unchanged in its place.
Outside string literals the lines have no comment marker; and with a line feed behind each
of them, they are a source with the same lines. -/
theorem lines_keep_places (source : String) :
    (∃ rows open_, IsReading source.toList rows open_) ∧
    (∀ rows open_, IsReading source.toList rows open_ →
      lines source = rows.map fun row => Text.trimEnd row.shown) ∧
    (∀ line ∈ lines source, Unmarked line) ∧
    lines (String.ofList (joined (lines source))) = lines source := by
  obtain ⟨rows, open_, h⟩ := exists_isReading source.toList
  have hlines := h.lines
  have hunmarked : ∀ line ∈ lines source, Unmarked line := by
    rw [hlines]
    intro line hline
    obtain ⟨row, hrow, rfl⟩ := List.mem_map.1 hline
    obtain ⟨inComment, next, hreads⟩ := h.reads.of_mem hrow
    obtain ⟨blanks, _, heq⟩ := Text.trimEnd_append_blanks row.shown
    have hshown : Unmarked row.shown := hreads.unmarked rfl
    rw [heq] at hshown
    exact hshown.of_append
  have honeLine : ∀ line ∈ lines source, OneLine line := by
    rw [hlines]
    intro line hline
    obtain ⟨row, hrow, rfl⟩ := List.mem_map.1 hline
    exact (h.splits.oneLine row.raw (List.mem_map_of_mem hrow)).shown
  have htrim : ∀ line ∈ lines source, Text.trimEnd line = line := by
    rw [hlines]
    intro line hline
    obtain ⟨row, _, rfl⟩ := List.mem_map.1 hline
    exact trimEnd_trimEnd row.shown
  refine ⟨⟨rows, open_, h⟩, fun _ _ k => k.lines, hunmarked, ?_⟩
  rw [lines, String.toList_ofList, (splits_joined honeLine).eq_split]
  exact cleanFrom_cleaned (fun line hline => (hunmarked line hline).cleaned (htrim line hline)) []

-- the comment that the first row opens goes on in the second, which keeps its columns
example : lines "x = \"/* kept */\" /* gone\n */ y // rest\n" =
    ["x = \"/* kept */\"".toList, "    y".toList] := by
  decide +kernel

end ScriptMachine.Source
