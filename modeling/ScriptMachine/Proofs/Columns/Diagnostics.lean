/-
  ScriptMachine.Proofs.Columns.Diagnostics

  The columns of diagnostics.  The columns of a line that can not be taken apart lie inside
  it (`Source.fits_statements`).  A statement that was taken out of a line gives no columns;
  a statement that counts as the whole line is the line, because a line with groups has more
  opening parentheses than each of its statements (`Source.Nest.count_flat`).  So the columns
  of every error of a script lie inside the line that it names, between characters, but for
  a missing operand at the end of the line (`Compile.columns_inside_line`).
-/

import ScriptMachine.Proofs.Columns.Statements
import ScriptMachine.Proofs.Feeding
import ScriptMachine.Proofs.Parentheses.Flattening

namespace ScriptMachine

-- ============================================================================
-- The statement that is the whole line
-- ============================================================================

namespace Text

theorem count_dropWhile_isBlank {c : Char} (hc : isBlank c = false) (cs : List Char) :
    (cs.dropWhile isBlank).count c = cs.count c := by
  have hblanks : (cs.takeWhile isBlank).count c = 0 := by
    refine List.count_eq_zero.2 fun hmem => ?_
    have hblank := List.all_eq_true.1 List.all_takeWhile c hmem
    rw [hc] at hblank
    cases hblank
  calc (cs.dropWhile isBlank).count c
      = (cs.takeWhile isBlank ++ cs.dropWhile isBlank).count c := by
        rw [List.count_append, hblanks, Nat.zero_add]
    _ = cs.count c := by rw [List.takeWhile_append_dropWhile]

/-- Trimming takes only blanks away. -/
theorem count_trim {c : Char} (hc : isBlank c = false) (cs : List Char) :
    (trim cs).count c = cs.count c := by
  rw [trim, trimEnd, List.count_reverse, count_dropWhile_isBlank hc, List.count_reverse, trimStart,
    count_dropWhile_isBlank hc]

end Text

namespace Source

variable {stem : String} {line : List Char} {p : Prop}

theorem Grouping.count_temporary (hstem : '(' ∉ stem.toList) (n : Nat) :
    (temporary stem n).count '(' = 0 := by
  rw [List.count_eq_zero, temporary, List.mem_append, not_or]
  refine ⟨hstem, fun hmem => ?_⟩
  have hdigit := Nat.isDigit_of_mem_toDigits (by decide) (by decide) hmem
  cases hdigit

namespace Nest

/-- Every opening parenthesis of a line is left in one of its statements, or it has opened
a group. -/
theorem count_flat (hstem : '(' ∉ stem.toList) (t : Nest) (n : Nat) :
    ((t.flat n).flatMap (Statement.text stem)).count '(' +
        ((t.own n).flatMap (Piece.text stem)).count '(' + t.groups = t.text.count '(' := by
  induction t generalizing n with
  | nil => rfl
  | char c rest ih =>
    have hrest := ih n
    simp only [flat, own, groups, text, Piece.text, List.flatMap_cons, List.cons_append,
      List.nil_append, List.count_cons]
    omega
  | group inner rest ihinner ihrest =>
    have hinner := ihinner (n + 1)
    have hrest := ihrest (n + 1 + inner.groups)
    have hname := Grouping.count_temporary hstem n
    simp only [flat, own, groups, text, Piece.text, Statement.text, List.flatMap_append,
      List.flatMap_cons, List.cons_append, List.count_append, List.count_cons, hname,
      Char.reduceBEq, if_true, Bool.false_eq_true, if_false]
    omega

/-- A line without groups is its own statement. -/
theorem flatMap_own (stem : String) {t : Nest} (h : t.groups = 0) (n : Nat) :
    (t.own n).flatMap (Piece.text stem) = t.text := by
  induction t with
  | nil => rfl
  | char c rest ih => exact congrArg (c :: ·) (ih h)
  | group inner rest _ _ =>
    rw [groups] at h
    omega

/-- A statement with the same text as the line, but for blanks at the ends, is the line. -/
theorem text_eq_of_mem_flatten (hstem : '(' ∉ stem.toList) {t : Nest} {u : Statement}
    (hu : u ∈ t.flatten) (htrim : Text.trim (u.text stem) = Text.trim t.text) :
    u.text stem = t.text := by
  have hcount : (u.text stem).count '(' = t.text.count '(' := by
    rw [← Text.count_trim (by decide), htrim, Text.count_trim (by decide)]
  have hle : (u.text stem).count '(' ≤ (t.flatten.flatMap (Statement.text stem)).count '(' := by
    rw [List.flatMap_def]
    exact (List.sublist_flatten_of_mem (List.mem_map_of_mem hu)).count_le _
  have hall :
      (t.flatten.flatMap (Statement.text stem)).count '(' + t.groups = t.text.count '(' := by
    rw [← t.count_flat hstem 0, flatten, List.flatMap_append, List.count_append,
      List.flatMap_singleton, Statement.text]
  have hgroups : t.groups = 0 := by omega
  have hflat : t.flat 0 = [] := by rw [← List.length_eq_zero_iff, length_flat, hgroups]
  rw [flatten, hflat, List.nil_append, List.mem_singleton] at hu
  rw [hu]
  exact t.flatMap_own stem hgroups 0

end Nest

/-- The statement of the line that counts as the whole line is the line. -/
def WholeLine (stem : String) (line : List Char) (ss : List (List Char)) : Prop :=
  '(' ∉ stem.toList → ∀ s ∈ ss, Text.trim s = Text.trim line → s = line

/-- A line is taken apart, or it has a parenthesis too many or too few, which is reported
inside the line. -/
theorem fits_statements (stem : String) (line : List Char) :
    FitsLine line p (WholeLine stem line) (statements stem line) := by
  rcases nest_or_unmatched false line with ⟨t, q, ht, rfl⟩ | ⟨t, rest, ht, rfl⟩ | h
  · rw [statements_nest ht]
    intro hstem s hs htrim
    obtain ⟨u, hu, rfl⟩ := List.mem_map.1 hs
    exact Nest.text_eq_of_mem_flatten hstem hu htrim
  · rw [statements_unmatched ht]
    have hat : Scanner.At (t.text ++ ')' :: rest) ⟨Text.utf8Length t.text, ')' :: rest⟩ :=
      ⟨t.text, rfl, rfl⟩
    exact Error.fits_inColumns nofun (hat.inside_next rfl rfl)
  · rw [statements_unclosed h]
    have hend := Text.boundary_utf8Length line
    exact Error.fits_inColumns nofun ⟨Nat.le_refl _, hend, hend⟩

end Source

namespace Compile

variable {stem : String} {text : List Char} {p : Prop} {S : Compiler → Prop}

-- ============================================================================
-- Lines
-- ============================================================================

/-- A statement that was taken out of a line gives no columns. -/
theorem fits_inFragment {s : List Char} {x : Compile Unit}
    (h : FitsWhere S stem s (fun _ => True) x) :
    FitsWhere S stem text (fun _ => True) (inFragment s x) := by
  intro c hc
  have hx := h c hc
  unfold inFragment
  cases hr : x c <;> rw [hr] at hx
  · exact hx
  · exact ⟨hx.unplaced, .inl (Columns.inside_zero text), hx.kind⟩

theorem fitsAlways_statements (text : List Char) :
    FitsAlways stem text (Source.WholeLine stem text)
      (do ofExcept (Source.statements (← get).config.stem text)) :=
  .get fun _ hc => fitsAlways_ofExcept (hc ▸ Source.fits_statements _ text)

/-- What a line does in front of its statements: where calls are permitted, it does not fail
for its place. -/
theorem fitsPermitted_opening (text : List Char) :
    FitsPermitted stem text (Source.WholeLine stem text) (opening text) := by
  have hstop : ∀ c ∈ headStop, c.utf8Size = 1 := fun c hc =>
    utf8Size_of_headStop c (List.mem_cons_of_mem _ hc)
  have hrest := @fitsAlways_statements stem text
  refine .behind (fitsAlways_head? hstop) (samePlace_head? _ _) fun r _ => ?_
  split
  · exact (fitsAlways_pure nofun).permitted
  · refine .get fun c _ => ?_
    dsimp only
    split
    · exact FitsWhere.andThen (fits_ask fun d => d.fits_checkSwitch _) fun _ =>
        (fitsAnyway_control _).andThen fun _ => hrest
    · exact hrest.permitted
    · refine .get fun d _ => ?_
      split
      · exact hrest.permitted
      · exact FitsAlways.permitted
          ((fitsAlways_throw_of (Q := fun _ => True) (by nofun)).andThen fun _ => hrest)

/-- The bookkeeping of a line can take a permission away from its statements, so nothing is
said of the place here. -/
theorem fits_line (hstem : '(' ∉ stem.toList) (text : List Char) :
    FitsWhere (fun _ => False) stem text (fun _ => True) (line text) := by
  rw [line_eq]
  have hopening : FitsWhere (fun _ => False) stem text (Source.WholeLine stem text)
      (opening text) := (fitsPermitted_opening text).mono fun _ h => h.elim
  refine hopening.bind_of (fun _ _ _ h _ => h.elim) fun ss hss => fits_forM fun s hs => ?_
  split
  · rename_i htrim
    rw [hss hstem s hs htrim]
    exact fitsPermitted_statement.mono fun _ h => h.elim
  · exact fits_inFragment (fitsPermitted_statement.mono fun _ h => h.elim)

-- ============================================================================
-- Scripts
-- ============================================================================

/-- An error of a step on a line, which is at no line yet, is placed at that line. -/
theorem placed_of_fits {e : Error} (h : e.Fits text p) (file : String) (number : Nat) (s : String) :
    (((e.inFile file).onLine (some number)).withText s).line = some number ∧
      (((e.inFile file).onLine (some number)).withText s).Marks text := by
  have hline : (((e.inFile file).onLine (some number)).line) = some number := by
    simp only [Error.onLine, Error.inFile, h.unplaced, Option.none_or]
  unfold Error.withText
  split
  · exact ⟨hline, h.marks⟩
  · exact ⟨hline, h.marks⟩

/-- The first line that fails is named, and the columns are those of this line. -/
theorem marks_of_lines {file : String} {number : Nat} {texts : List (List Char)}
    {c c' : Compiler} {e : Error} (hstem : '(' ∉ c.config.stem.toList)
    (h : lines file number texts c = .error e c') :
    ∃ n text, e.line = some (number + n) ∧ texts[n]? = some text ∧ e.Marks text := by
  induction texts generalizing number c with
  | nil => cases h
  | cons text rest ih =>
    have hline := fits_line hstem text c rfl
    simp only [lines, onLine, reporting, bind, EStateM.bind] at h
    cases hr : line text c with
    | ok u d =>
      rw [hr] at h hline
      rw [← hline.1] at hstem
      obtain ⟨n, found, hnumber, hfound, hmarks⟩ := ih hstem h
      exact ⟨n + 1, found, by rw [hnumber, Nat.add_assoc, Nat.add_comm 1 n], hfound, hmarks⟩
    | error e' d =>
      rw [hr] at h hline
      cases h
      obtain ⟨hnumber, hmarks⟩ := placed_of_fits hline file number (String.ofList text)
      exact ⟨0, text, hnumber, rfl, hmarks⟩

/-! ## Ending a program -/

theorem fits_of_resolveFixups {blocks : Blocks} {fs : List Fixup} {p q : Program} {e : Error}
    (h : resolveFixups blocks fs p = .error e q) : e.Fits text True := by
  induction fs generalizing p with
  | nil => cases h
  | cons f fs ih =>
    rw [resolveFixups_cons] at h
    unfold Fixup.resolve at h
    cases hdest : blocks.address? f.label with
    | none =>
      rw [hdest] at h
      cases h
      exact Error.fits_of nofun
    | some dest =>
      rw [hdest] at h
      dsimp only at h
      cases hpatch : p.patch f.address (Int64.ofNat dest) with
      | ok p' =>
        rw [hpatch] at h
        exact ih h
      | error e' =>
        rw [hpatch] at h
        cases h
        rw [Program.patch_eq_error hpatch]
        exact Error.fits_of nofun

theorem fitsAnyway_resolve : FitsAnyway stem text resolve := by
  intro c hc
  unfold resolve
  dsimp only
  cases hr : resolveFixups c.blocks c.fixups.toList c.program with
  | ok u p => exact ⟨hc, trivial⟩
  | error e p => exact fits_of_resolveFixups hr

/-- Naming the file of an error leaves its columns alone. -/
theorem fitsAnyway_reporting_inFile {x : Compile Unit} (file : String)
    (h : FitsAnyway stem text x) : FitsAnyway stem text (reporting (·.inFile file) x) := by
  intro c hc
  have hx := h c hc
  unfold reporting
  cases hr : x c <;> rw [hr] at hx
  · exact hx
  · exact ⟨hx.unplaced, hx.marks, hx.kind⟩

/-- The end of a program fails at no line. -/
theorem fitsAnyway_finish : FitsAnyway stem text finish := by
  refine .get fun c _ => FitsWhere.andThen (fitsAnyway_reporting_inFile _ ?_) fun _ => ?_
  · refine FitsWhere.andThen (fits_ask fun d => ?_) fun _ =>
      (fitsAnyway_comment _).andThen fun _ =>
      (fits_emit fun _ => Draft.fits_put _).andThen fun _ => fitsAnyway_resolve
    split
    · exact fits_error_of nofun
    · trivial
  · exact (fitsAnyway_modify (by exact fun _ => rfl)).andThen fun _ =>
      .get fun d _ => fitsAlways_pure trivial

/-- The error names a line of the source.  Its columns are in order, not behind the end of
the line, and at boundaries of characters; or an operand is missing where the line ends, and
the column is the one behind it. -/
def Located (source : String) (e : Error) : Prop :=
  ∃ n text, e.line = some (n + 1) ∧ (Source.lines source)[n]? = some text ∧
    ((e.columns.start ≤ e.columns.stop ∧ e.columns.stop ≤ Text.utf8Length text ∧
        Text.Boundary text e.columns.start ∧ Text.Boundary text e.columns.stop) ∨
      e.kind = .syntaxError ∧ e.message = "MISSING OPERAND" ∧
        e.columns = ⟨Text.utf8Length text, Text.utf8Length text + 1⟩)

theorem located_of_script {file source : String} {c c' : Compiler} {e : Error}
    (hstem : '(' ∉ c.config.stem.toList) (h : script file source c = .error e c') :
    Located source e := by
  have hlines : lines file 1 (Source.lines source) (loading c file) = .error e c' := h
  obtain ⟨n, text, hnumber, htext, hmarks⟩ := marks_of_lines (c := loading c file) hstem hlines
  refine ⟨n, text, by rw [hnumber, Nat.add_comm], htext, ?_⟩
  rcases hmarks with hinside | hmissing
  · exact .inl ⟨hinside.ordered, hinside.stop.le_utf8Length, hinside.start, hinside.stop⟩
  · exact .inr hmissing

/-- The columns of a diagnostic lie inside its line, with one exception.  Whatever a script
is, and whatever was compiled before it, if it is refused, the error names one of its lines,
and the columns lie inside this line, between characters (the columns `0..0` of an error
without a place among them); but a missing operand at the end of the line is reported behind
the end, where there is nothing.  The names of temporaries are without opening parentheses.
A script that is compiled alone into a program fails like this, or at no line. -/
theorem columns_inside_line (file source : String) :
    (∀ c c' e, '(' ∉ c.config.stem.toList → script file source c = .error e c' →
      Located source e) ∧
    ∀ e n, compile file source = .error e → e.line = some n → Located source e := by
  refine ⟨fun c c' e hstem h => located_of_script hstem h, fun e n h hn => ?_⟩
  have hstem : '(' ∉ (Compiler.ofConfig {}).config.stem.toList := by decide
  unfold compile at h
  simp only [bind, EStateM.bind] at h
  cases hscript : script file source (Compiler.ofConfig {}) with
  | error e' c =>
    rw [hscript] at h
    cases h
    exact located_of_script hstem hscript
  | ok u c =>
    rw [hscript] at h
    have hfails : FitsAnyway c.config.stem [] finish := fitsAnyway_finish
    have hfinish := hfails c rfl
    dsimp only at h
    cases hr : finish c with
    | ok p d =>
      rw [hr] at h
      cases h
    | error e' d =>
      rw [hr] at h hfinish
      cases h
      rw [hfinish.unplaced] at hn
      cases hn

/-- A sign in the place of the first word, behind a tab in the second line. -/
theorem columns_inside_line_sign :
    '(' ∉ (Compiler.ofConfig {}).config.stem.toList ∧
    ∃ e c', script "test" "\n\t=" (Compiler.ofConfig {}) = .error e c' ∧ e.columns = ⟨1, 2⟩ ∧
      ∃ n text, e.line = some (n + 1) ∧ (Source.lines "\n\t=")[n]? = some text ∧
        Text.Boundary text 1 ∧ Text.Boundary text 2 := by
  have hstem : '(' ∉ (Compiler.ofConfig {}).config.stem.toList := by decide
  obtain ⟨e, c', h, hcolumns, hmessage⟩ : ∃ e c',
      script "test" "\n\t=" (Compiler.ofConfig {}) = .error e c' ∧ e.columns = ⟨1, 2⟩ ∧
        e.message = "UNEXPECTED [=]" :=
    ⟨_, _, rfl, rfl, rfl⟩
  refine ⟨hstem, e, c', h, hcolumns, ?_⟩
  obtain ⟨n, text, hline, htext, ⟨_, _, hstart, hstop⟩ | ⟨_, hmissing, _⟩⟩ :=
    (columns_inside_line "test" "\n\t=").1 _ _ _ hstem h
  · rw [hcolumns] at hstart hstop
    exact ⟨n, text, hline, htext, hstart, hstop⟩
  · rw [hmessage] at hmissing
    exact absurd hmissing (by decide)

end Compile

end ScriptMachine
