/-
  ScriptMachine.Proofs.Columns.Boundaries

  Where a scanner stands.  A byte offset is a boundary of a line when a character begins
  there or the line ends there (`Text.Boundary`).  A scanner inside a line stands at one,
  and every operation leaves it inside the line (`Scanner.At`); so the columns between two
  scanners, or over a character of one byte, lie inside the line (`Columns.Inside`).
-/

import ScriptMachine.Error
import ScriptMachine.Source.Scanner

namespace ScriptMachine

-- ============================================================================
-- Boundaries
-- ============================================================================

/-- A character of the text begins at the byte offset, or the text ends there. -/
def Text.Boundary (text : List Char) (n : Nat) : Prop :=
  ∃ front, front <+: text ∧ n = Text.utf8Length front

/-- The columns begin and end at boundaries of the line, in this order. -/
structure Columns.Inside (line : List Char) (c : Columns) : Prop where
  ordered : c.start ≤ c.stop
  start : Text.Boundary line c.start
  stop : Text.Boundary line c.stop

theorem Text.Boundary.le_utf8Length {text : List Char} {n : Nat} (h : Boundary text n) :
    n ≤ utf8Length text := by
  obtain ⟨front, ⟨rest, rfl⟩, rfl⟩ := h
  rw [utf8Length_append]
  exact Nat.le_add_right _ _

theorem Text.boundary_zero (text : List Char) : Boundary text 0 :=
  ⟨[], List.nil_prefix, rfl⟩

theorem Text.boundary_utf8Length (text : List Char) : Boundary text (utf8Length text) :=
  ⟨text, List.prefix_refl text, rfl⟩

/-- The columns that stand for none. -/
theorem Columns.inside_zero (line : List Char) : Columns.Inside line ⟨0, 0⟩ :=
  ⟨Nat.le_refl 0, Text.boundary_zero line, Text.boundary_zero line⟩

-- ============================================================================
-- Scanners
-- ============================================================================

namespace Scanner

variable {line : List Char} {s t : Scanner}

/-- What stands next, if a word was looked for and nothing is in front of the stop. -/
theorem of_word?_nil {stop : List Char} (h : s.word? stop = some ([], t)) :
    t = s ∧ ∃ c rest, s.rest = c :: rest ∧ c ∈ stop := by
  unfold word? at h
  split at h
  · cases h
  · rename_i hne
    obtain ⟨offset, rest⟩ := s
    cases rest with
    | nil => exact absurd rfl hne
    | cons c rest =>
      have hrun := Option.some.inj h
      by_cases hc : c ∈ stop
      · have hstop : stop.contains c = true := by simpa using hc
        simp only [run, List.takeWhile_cons, List.dropWhile_cons, hstop, Bool.not_true,
          Bool.false_eq_true, if_false] at hrun
        exact ⟨(Prod.mk.inj hrun).2.symm, c, rest, rfl, hc⟩
      · have hstop : stop.contains c = false := by simpa using hc
        simp only [run, List.takeWhile_cons, hstop, Bool.not_false, if_true] at hrun
        cases (Prod.mk.inj hrun).1

theorem rest_eq_nil_of_word? {stop : List Char} (h : s.word? stop = none) : s.rest = [] := by
  unfold word? at h
  split at h
  · rename_i hempty
    exact List.isEmpty_iff.1 hempty
  · cases h

/-! ## Staying inside a line -/

theorem At.run (h : At line s) (p : Char → Bool) : At line (s.run p).2 :=
  h.of_append (rest_run p s)

theorem At.skip (h : At line s) (set : List Char) : At line (s.skip set) :=
  h.run _

theorem At.word? (h : At line s) {stop word : List Char} (hw : s.word? stop = some (word, t)) :
    At line t := by
  unfold Scanner.word? at hw
  split at hw
  · cases hw
  · have hrun := h.run fun c => !stop.contains c
    rw [Option.some.inj hw] at hrun
    exact hrun

theorem At.operator? (h : At line s) {set spelling : List Char}
    (hop : s.operator? set = some (spelling, t)) : At line t := by
  unfold Scanner.operator? at hop
  dsimp only at hop
  split at hop
  · cases hop
  · obtain ⟨_, rfl⟩ := Prod.mk.inj (Option.some.inj hop)
    exact h.run _

/-- Behind the character that comes next. -/
theorem At.next (h : At line s) {c : Char} {rest : List Char} (hrest : s.rest = c :: rest) :
    At line ⟨s.offset + c.utf8Size, rest⟩ := by
  have hnext : At line ⟨s.offset + Text.utf8Length [c], rest⟩ := h.of_append hrest
  rwa [Text.utf8Length_cons, Text.utf8Length_nil, Nat.add_zero] at hnext

theorem At.delimited? (h : At line s) {delimiter : Char} {text : List Char}
    (hd : s.delimited? delimiter = some (text, t)) : At line t := by
  unfold Scanner.delimited? at hd
  split at hd
  · cases hd
  · rename_i c rest hrest
    split at hd
    · dsimp only at hd
      split at hd
      · cases hd
      · rename_i d rest' hrun
        obtain ⟨_, rfl⟩ := Prod.mk.inj (Option.some.inj hd)
        exact ((h.next hrest).run _).next hrun
    · cases hd

/-! ## Columns -/

theorem At.boundary (h : At line s) : Text.Boundary line s.offset := by
  obtain ⟨consumed, hline, hoffset⟩ := h
  exact ⟨consumed, ⟨s.rest, hline.symm⟩, hoffset⟩

/-- A scanner for which less of the line is left stands further on. -/
theorem At.offset_le (hs : At line s) (ht : At line t) (h : t.rest.length ≤ s.rest.length) :
    s.offset ≤ t.offset := by
  obtain ⟨front, hline, hoffset⟩ := hs
  obtain ⟨front', hline', hoffset'⟩ := ht
  have hlength : front.length ≤ front'.length := by
    have hsum := congrArg List.length (hline.symm.trans hline')
    simp only [List.length_append] at hsum
    omega
  obtain ⟨between, hbetween⟩ :=
    List.prefix_of_prefix_length_le ⟨s.rest, hline.symm⟩ ⟨t.rest, hline'.symm⟩ hlength
  rw [hoffset, hoffset', ← hbetween, Text.utf8Length_append]
  exact Nat.le_add_right _ _

/-- The columns from one scanner to another one that is not before it. -/
theorem At.inside (hs : At line s) (ht : At line t) (h : t.rest.length ≤ s.rest.length) :
    Columns.Inside line ⟨s.offset, t.offset⟩ :=
  ⟨hs.offset_le ht h, hs.boundary, ht.boundary⟩

/-- The columns of all that is left. -/
theorem At.inside_lineEnd (h : At line s) : Columns.Inside line ⟨s.offset, s.lineEnd⟩ :=
  ⟨Nat.le_add_right _ _, h.boundary, h.lineEnd_eq ▸ Text.boundary_utf8Length line⟩

/-- The column of a character that takes one byte. -/
theorem At.inside_next (h : At line s) {c : Char} {rest : List Char} (hrest : s.rest = c :: rest)
    (hc : c.utf8Size = 1) : Columns.Inside line ⟨s.offset, s.offset + 1⟩ := by
  have hnext := h.next hrest
  rw [hc] at hnext
  exact ⟨Nat.le_add_right _ _, h.boundary, hnext.boundary⟩

end Scanner

end ScriptMachine
