/-
  ScriptMachine.Source.Scanner

  A scanner over one line.  It knows what is left of the line and the byte
  offset at which that begins; every operation takes characters from the front.
  `Scanner.At line s` says that `s` stands inside `line`, and each operation
  keeps that.
-/

import ScriptMachine.Text.Length

namespace ScriptMachine

/-- The rest of a line and its byte offset in the line. -/
structure Scanner where
  offset : Nat
  rest : List Char
  deriving DecidableEq, Repr

namespace Scanner

/-- The scanner at the start of a line. -/
def ofLine (line : List Char) : Scanner :=
  ⟨0, line⟩

/-- Nothing is left of the line. -/
def isEmpty (s : Scanner) : Bool :=
  s.rest.isEmpty

/-- Byte length of the whole line. -/
def lineEnd (s : Scanner) : Nat :=
  s.offset + Text.utf8Length s.rest

/-- The longest run of characters that satisfy `p`, and the scanner behind it. -/
def run (p : Char → Bool) (s : Scanner) : List Char × Scanner :=
  let taken := s.rest.takeWhile p
  (taken, ⟨s.offset + Text.utf8Length taken, s.rest.dropWhile p⟩)

/-- Skips the characters of a set. -/
def skip (set : List Char) (s : Scanner) : Scanner :=
  (s.run set.contains).2

/-- The characters up to the first one of `stop`: possibly none, but nothing at
the end of the line. -/
def word? (stop : List Char) (s : Scanner) : Option (List Char × Scanner) :=
  if s.rest.isEmpty then none else some (s.run fun c => !stop.contains c)

/-- The characters between two delimiters, the first of which comes next. -/
def delimited? (delimiter : Char) (s : Scanner) : Option (List Char × Scanner) :=
  match s.rest with
  | [] => none
  | c :: rest =>
    if c = delimiter then
      let (inner, s) := run (· != delimiter) ⟨s.offset + c.utf8Size, rest⟩
      match s.rest with
      | [] => none
      | c :: rest => some (inner, ⟨s.offset + c.utf8Size, rest⟩)
    else none

/-- A non-empty run of characters of a set. -/
def operator? (set : List Char) (s : Scanner) : Option (List Char × Scanner) :=
  let (taken, s) := s.run set.contains
  if taken.isEmpty then none else some (taken, s)

/-! ## Standing inside a line -/

/-- The scanner stands inside `line`: what it has consumed and what is left make
up the line, and the offset is the byte length of what is consumed. -/
def At (line : List Char) (s : Scanner) : Prop :=
  ∃ consumed, line = consumed ++ s.rest ∧ s.offset = Text.utf8Length consumed

theorem at_ofLine (line : List Char) : At line (ofLine line) :=
  ⟨[], rfl, rfl⟩

theorem At.of_append {line taken rest : List Char} {s : Scanner} (h : At line s)
    (hrest : s.rest = taken ++ rest) : At line ⟨s.offset + Text.utf8Length taken, rest⟩ := by
  obtain ⟨consumed, hline, hoffset⟩ := h
  exact ⟨consumed ++ taken, by simp [hline, hrest], by simp [hoffset]⟩

theorem At.lineEnd_eq {line : List Char} {s : Scanner} (h : At line s) :
    s.lineEnd = Text.utf8Length line := by
  obtain ⟨consumed, hline, hoffset⟩ := h
  simp [lineEnd, hline, hoffset]

/-! ## What an operation leaves -/

theorem rest_run (p : Char → Bool) (s : Scanner) :
    s.rest = (s.run p).1 ++ (s.run p).2.rest := by
  simp [run]

theorem length_run_le (p : Char → Bool) (s : Scanner) :
    (s.run p).2.rest.length ≤ s.rest.length := by
  rw [rest_run p s, List.length_append]
  omega

theorem length_skip_le (set : List Char) (s : Scanner) :
    (s.skip set).rest.length ≤ s.rest.length :=
  length_run_le _ s

theorem length_word_lt {stop : List Char} {s t : Scanner} {w : List Char}
    (h : s.word? stop = some (w, t)) (hw : w ≠ []) : t.rest.length < s.rest.length := by
  unfold word? at h
  split at h
  · cases h
  · have hrun := Option.some.inj h
    have hrest := rest_run (fun c => !stop.contains c) s
    rw [hrun] at hrest
    have hlen := congrArg List.length hrest
    have hpos := List.length_pos_iff.2 hw
    simp only [List.length_append] at hlen
    omega

theorem length_word_le {stop : List Char} {s t : Scanner} {w : List Char}
    (h : s.word? stop = some (w, t)) : t.rest.length ≤ s.rest.length := by
  unfold word? at h
  split at h
  · cases h
  · have hle := length_run_le (fun c => !stop.contains c) s
    rw [Option.some.inj h] at hle
    exact hle

theorem length_operator_lt {set : List Char} {s t : Scanner} {w : List Char}
    (h : s.operator? set = some (w, t)) : t.rest.length < s.rest.length := by
  have hrest := rest_run set.contains s
  simp only [operator?] at h
  split at h
  · cases h
  · rename_i hne
    obtain ⟨rfl, rfl⟩ := Prod.mk.inj (Option.some.inj h)
    have hpos := List.length_pos_iff.2 (by simpa using hne : (s.run set.contains).1 ≠ [])
    have hlen := congrArg List.length hrest
    simp only [List.length_append] at hlen
    omega

theorem length_delimited_lt {d : Char} {s t : Scanner} {w : List Char}
    (h : s.delimited? d = some (w, t)) : t.rest.length < s.rest.length := by
  unfold delimited? at h
  split at h
  · cases h
  · rename_i c rest hs
    split at h
    · have hle := length_run_le (· != d) ⟨s.offset + c.utf8Size, rest⟩
      dsimp only at h
      split at h
      · cases h
      · rename_i c' rest' hrun
        obtain ⟨_, rfl⟩ := Prod.mk.inj (Option.some.inj h)
        rw [hrun] at hle
        simp only [List.length_cons] at hle
        simp only [hs, List.length_cons]
        omega
    · cases h

end Scanner

end ScriptMachine
