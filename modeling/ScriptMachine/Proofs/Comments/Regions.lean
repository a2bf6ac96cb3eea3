/-
  ScriptMachine.Proofs.Comments.Regions

  How a source is to be read: as rows that end at a line feed, a carriage return or both
  (`Splits`), and each row as characters of code, string literals and block comments up to
  a `//` that ends it (`Reads`).  A literal reaches to the next quote or to the end of its
  row, a block comment to the next `*/`, over as many rows as that takes.  Neither relation
  looks at single states of a reader.  Every source has such a reading
  (`exists_isReading`), and the rows of a reading are those that `split` gives.
-/

import Mathlib.Data.List.Infix
import ScriptMachine.Source.Lines

namespace ScriptMachine.Source

-- ============================================================================
-- Rows
-- ============================================================================

/-- The text has no character that ends a line. -/
def OneLine (cs : List Char) : Prop :=
  ∀ c ∈ cs, c ≠ '\n' ∧ c ≠ '\r'

/-- A source as rows: what stands in front of each terminator, and a last row without a
terminator when it is not empty.  A carriage return with a line feed behind it is one
terminator with it. -/
inductive Splits : List Char → List (List Char) → Prop where
  | nil : Splits [] []
  | last {row : List Char} (hrow : OneLine row) (hne : row ≠ []) : Splits row [row]
  | feed {row cs : List Char} {rows : List (List Char)} (hrow : OneLine row)
    (h : Splits cs rows) : Splits (row ++ '\n' :: cs) (row :: rows)
  | returnFeed {row cs : List Char} {rows : List (List Char)} (hrow : OneLine row)
    (h : Splits cs rows) : Splits (row ++ '\r' :: '\n' :: cs) (row :: rows)
  | carriage {row cs : List Char} {rows : List (List Char)} (hrow : OneLine row)
    (hcs : cs.head? ≠ some '\n') (h : Splits cs rows) : Splits (row ++ '\r' :: cs) (row :: rows)

/-- The characters of a row are collected. -/
theorem splitFrom_oneLine {row : List Char} (hrow : OneLine row) (line : List Char)
    (done : List (List Char)) (cs : List Char) :
    splitFrom line done (row ++ cs) = splitFrom (row.reverse ++ line) done cs := by
  induction row generalizing line with
  | nil => rfl
  | cons c row ih =>
    obtain ⟨⟨hfeed, hreturn⟩, hrest⟩ := List.forall_mem_cons.1 hrow
    have hone : splitFrom line done (c :: (row ++ cs)) =
        splitFrom (c :: line) done (row ++ cs) := by
      rw [splitFrom.eq_def]
      split <;> simp_all
    rw [List.cons_append, hone, ih hrest, List.reverse_cons, List.append_assoc,
      List.singleton_append]

theorem splitFrom_carriage {cs : List Char} (hcs : cs.head? ≠ some '\n') (line : List Char)
    (done : List (List Char)) :
    splitFrom line done ('\r' :: cs) = splitFrom [] (line.reverse :: done) cs := by
  rw [splitFrom]
  rintro rest rfl
  exact hcs rfl

/-- A source has no other rows than those that `split` gives. -/
theorem Splits.splitFrom {cs : List Char} {rows : List (List Char)} (h : Splits cs rows)
    (done : List (List Char)) : splitFrom [] done cs = done.reverse ++ rows := by
  induction h generalizing done with
  | nil => simp [Source.splitFrom]
  | @last row hrow hne =>
    have hrev : ¬ row.reverse.isEmpty := by simpa using hne
    have hall := splitFrom_oneLine hrow [] done []
    rw [List.append_nil, List.append_nil] at hall
    rw [hall, Source.splitFrom, if_neg hrev, List.reverse_cons, List.reverse_reverse]
  | feed hrow _ ih =>
    rw [splitFrom_oneLine hrow, Source.splitFrom, ih]
    simp
  | returnFeed hrow _ ih =>
    rw [splitFrom_oneLine hrow, Source.splitFrom, ih]
    simp
  | carriage hrow hcs _ ih =>
    rw [splitFrom_oneLine hrow, splitFrom_carriage hcs, ih]
    simp

theorem Splits.eq_split {cs : List Char} {rows : List (List Char)} (h : Splits cs rows) :
    split cs = rows :=
  h.splitFrom []

/-- Every text is a row, or a row with something behind it that ends a line. -/
theorem exists_oneLine (cs : List Char) : ∃ row rest, cs = row ++ rest ∧ OneLine row ∧
    (rest = [] ∨ (∃ after, rest = '\n' :: after) ∨ ∃ after, rest = '\r' :: after) := by
  induction cs with
  | nil => exact ⟨[], [], rfl, by simp [OneLine], .inl rfl⟩
  | cons c cs ih =>
    by_cases hfeed : c = '\n'
    · exact ⟨[], c :: cs, rfl, by simp [OneLine], .inr (.inl ⟨cs, by rw [hfeed]⟩)⟩
    · by_cases hreturn : c = '\r'
      · exact ⟨[], c :: cs, rfl, by simp [OneLine], .inr (.inr ⟨cs, by rw [hreturn]⟩)⟩
      · obtain ⟨row, rest, rfl, hrow, hrest⟩ := ih
        exact ⟨c :: row, rest, rfl, List.forall_mem_cons.2 ⟨⟨hfeed, hreturn⟩, hrow⟩, hrest⟩

theorem exists_splits (cs : List Char) : ∃ rows, Splits cs rows := by
  induction hn : cs.length using Nat.strong_induction_on generalizing cs with | _ n ih
  subst hn
  obtain ⟨row, rest, rfl, hrow, rfl | ⟨after, rfl⟩ | ⟨after, rfl⟩⟩ := exists_oneLine cs
  · rw [List.append_nil]
    by_cases hne : row = []
    · exact ⟨[], hne ▸ .nil⟩
    · exact ⟨[row], .last hrow hne⟩
  · obtain ⟨rows, h⟩ := ih after.length (by simp +arith) after rfl
    exact ⟨row :: rows, .feed hrow h⟩
  · cases after with
    | nil => exact ⟨[row], .carriage hrow (by simp) .nil⟩
    | cons c after =>
      by_cases hc : c = '\n'
      · obtain ⟨rows, h⟩ := ih after.length (by simp +arith) after rfl
        exact ⟨row :: rows, hc ▸ .returnFeed hrow h⟩
      · obtain ⟨rows, h⟩ := ih (c :: after).length (by simp +arith) (c :: after) rfl
        exact ⟨row :: rows, .carriage hrow (by simpa using hc) h⟩

theorem Splits.oneLine {cs : List Char} {rows : List (List Char)} (h : Splits cs rows) :
    ∀ row ∈ rows, OneLine row := by
  induction h with
  | nil => simp
  | last hrow => simpa using hrow
  | feed hrow _ ih | returnFeed hrow _ ih | carriage hrow _ _ ih =>
    exact List.forall_mem_cons.2 ⟨hrow, ih⟩

-- ============================================================================
-- Regions of a row
-- ============================================================================

/-- `Reads inComment raw regions stillInComment`: the regions of the characters of a row in
front of the `//` that ends it, or of all its characters.  The two flags say whether a
block comment is open at the start of the row and at its end. -/
inductive Reads : Bool → List Char → List Region → Bool → Prop where
  | nil : Reads false [] [] false
  | code {c : Char} {cs : List Char} {regions : List Region} {open_ : Bool} (hquote : c ≠ '"')
    (hmarker : c = '/' → cs.head? ≠ some '/' ∧ cs.head? ≠ some '*')
    (h : Reads false cs regions open_) : Reads false (c :: cs) (.code :: regions) open_
  | literal {body cs : List Char} {regions : List Region} {open_ : Bool} (hbody : '"' ∉ body)
    (h : Reads false cs regions open_) :
    Reads false ('"' :: (body ++ '"' :: cs))
      (List.replicate (body.length + 2) .quoted ++ regions) open_
  | unclosed {body : List Char} (hbody : '"' ∉ body) :
    Reads false ('"' :: body) (List.replicate (body.length + 1) .quoted) false
  | remark (cs : List Char) : Reads false ('/' :: '/' :: cs) [] false
  | opens {cs : List Char} {regions : List Region} {open_ : Bool}
    (h : Reads true cs regions open_) :
    Reads false ('/' :: '*' :: cs) (.comment :: .comment :: regions) open_
  | closes {body cs : List Char} {regions : List Region} {open_ : Bool}
    (hbody : ¬ ['*', '/'] <:+: body ++ ['*']) (h : Reads false cs regions open_) :
    Reads true (body ++ '*' :: '/' :: cs)
      (List.replicate (body.length + 2) .comment ++ regions) open_
  | stays {body : List Char} (hbody : ¬ ['*', '/'] <:+: body) :
    Reads true body (List.replicate body.length .comment) true

/-- A text with `*/` in it has a first one. -/
theorem exists_first_closer {cs : List Char} (h : ['*', '/'] <:+: cs) :
    ∃ body rest, cs = body ++ '*' :: '/' :: rest ∧ ¬ ['*', '/'] <:+: body ++ ['*'] := by
  induction cs with
  | nil => simp at h
  | cons c cs ih =>
    rcases List.infix_cons_iff.1 h with ⟨rest, hrest⟩ | h
    · refine ⟨[], rest, hrest.symm, fun hone => ?_⟩
      exact absurd hone.length_le (by simp)
    · by_cases hhere : ['*', '/'] <+: c :: cs
      · obtain ⟨rest, hrest⟩ := hhere
        refine ⟨[], rest, hrest.symm, fun hone => ?_⟩
        exact absurd hone.length_le (by simp)
      · obtain ⟨body, rest, rfl, hbody⟩ := ih h
        refine ⟨c :: body, rest, rfl, fun hinfix => ?_⟩
        rcases List.infix_cons_iff.1 hinfix with hfirst | hlater
        · refine hhere (hfirst.trans ⟨'/' :: rest, ?_⟩)
          simp
        · exact hbody hlater

/-- Every row can be read, whether a comment is open in front of it or not. -/
theorem exists_reads (inComment : Bool) (cs : List Char) :
    ∃ regions open_, Reads inComment cs regions open_ := by
  induction hn : cs.length using Nat.strong_induction_on generalizing cs inComment with | _ n ih
  subst hn
  cases inComment with
  | true =>
    by_cases h : ['*', '/'] <:+: cs
    · obtain ⟨body, rest, rfl, hbody⟩ := exists_first_closer h
      obtain ⟨regions, open_, hrest⟩ := ih rest.length (by simp +arith) false rest rfl
      exact ⟨_, open_, .closes hbody hrest⟩
    · exact ⟨_, true, .stays h⟩
  | false =>
    cases cs with
    | nil => exact ⟨[], false, .nil⟩
    | cons c cs =>
      by_cases hquote : c = '"'
      · subst hquote
        by_cases hclosed : '"' ∈ cs
        · obtain ⟨body, rest, rfl, hbody⟩ := List.eq_append_cons_of_mem hclosed
          obtain ⟨regions, open_, hrest⟩ := ih rest.length (by simp +arith) false rest rfl
          exact ⟨_, open_, .literal hbody hrest⟩
        · exact ⟨_, false, .unclosed hclosed⟩
      · by_cases hremark : c = '/' ∧ cs.head? = some '/'
        · obtain ⟨rfl, hhead⟩ := hremark
          obtain ⟨rest, rfl⟩ := List.head?_eq_some_iff.1 hhead
          exact ⟨[], false, .remark rest⟩
        · by_cases hopens : c = '/' ∧ cs.head? = some '*'
          · obtain ⟨rfl, hhead⟩ := hopens
            obtain ⟨rest, rfl⟩ := List.head?_eq_some_iff.1 hhead
            obtain ⟨regions, open_, hrest⟩ := ih rest.length (by simp +arith) true rest rfl
            exact ⟨_, open_, .opens hrest⟩
          · obtain ⟨regions, open_, hrest⟩ := ih cs.length (by simp) false cs rfl
            exact ⟨_, open_, .code hquote
              (fun hc => ⟨fun h => hremark ⟨hc, h⟩, fun h => hopens ⟨hc, h⟩⟩) hrest⟩

-- ============================================================================
-- Readings of a source
-- ============================================================================

/-- A row of a source with the regions of its characters. -/
structure Row where
  raw : List Char
  regions : List Region

/-- A character as it is shown: a blank for every one that belongs to a block comment. -/
def Region.shows (region : Region) (c : Char) : Char :=
  if region = .comment then ' ' else c

/-- A row as it is shown: every character keeps its place, and nothing is shown from the
`//` on. -/
def Row.shown (row : Row) : List Char :=
  List.zipWith Region.shows row.regions row.raw

/-- Each row is read in turn; a comment that is open at the end of a row is open at the
start of the next. -/
inductive ReadsAll : Bool → List Row → Bool → Prop where
  | nil (inComment : Bool) : ReadsAll inComment [] inComment
  | cons {inComment next last : Bool} {row : Row} {rows : List Row}
    (h : Reads inComment row.raw row.regions next) (k : ReadsAll next rows last) :
    ReadsAll inComment (row :: rows) last

/-- The rows are those of the source, and they are read one after the other; the flag says
whether the source ends inside a block comment. -/
structure IsReading (cs : List Char) (rows : List Row) (open_ : Bool) : Prop where
  splits : Splits cs (rows.map Row.raw)
  reads : ReadsAll false rows open_

theorem exists_readsAll (inComment : Bool) (raws : List (List Char)) :
    ∃ rows open_, rows.map Row.raw = raws ∧ ReadsAll inComment rows open_ := by
  induction raws generalizing inComment with
  | nil => exact ⟨[], inComment, rfl, .nil inComment⟩
  | cons raw raws ih =>
    obtain ⟨regions, next, h⟩ := exists_reads inComment raw
    obtain ⟨rows, open_, rfl, k⟩ := ih next
    exact ⟨⟨raw, regions⟩ :: rows, open_, rfl, .cons h k⟩

/-- Every source can be read. -/
theorem exists_isReading (cs : List Char) : ∃ rows open_, IsReading cs rows open_ := by
  obtain ⟨raws, hsplits⟩ := exists_splits cs
  obtain ⟨rows, open_, rfl, hreads⟩ := exists_readsAll false raws
  exact ⟨rows, open_, hsplits, hreads⟩

end ScriptMachine.Source
