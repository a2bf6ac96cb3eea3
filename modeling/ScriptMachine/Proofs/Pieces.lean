/-
  ScriptMachine.Proofs.Pieces

  The pieces that a scanner takes from its line.  `Scanner.Call.Takes` says what each call
  may return, which piece it takes from the front and what it leaves; every call does one of
  these (`Scanner.does_call`).  So whatever is called, the pieces and what is left make up
  the line, and the scanner stands at the byte where what is left begins
  (`Scanner.nothing_lost`).
-/

import ScriptMachine.Source.Scanner

namespace ScriptMachine

/-- The byte behind the first part of a text is one where a character of its encoding begins,
and the second part is what follows there. -/
theorem Text.exists_pos (front rest : List Char) :
    ∃ p : (String.ofList (front ++ rest)).Pos, p.offset.byteIdx = utf8Length front ∧
      ((String.ofList (front ++ rest)).sliceFrom p).copy = String.ofList rest := by
  have happend : String.ofList (front ++ rest) = String.ofList front ++ String.ofList rest :=
    String.ofList_append
  have hvalid : (String.ofList front).rawEndPos.IsValid (String.ofList (front ++ rest)) :=
    String.Pos.Raw.isValid_iff_exists_append.2 ⟨_, _, happend, rfl⟩
  have hsize : (String.ofList front).utf8ByteSize = utf8Length front := by
    rw [← utf8Length_toList, String.toList_ofList]
  exact ⟨⟨_, hvalid⟩, hsize, String.Pos.Splits.copy_sliceFrom_eq ⟨happend, rfl⟩⟩

namespace Scanner

-- ============================================================================
-- Calls
-- ============================================================================

/-- The calls of a scanner. -/
inductive Call where
  | skip (set : List Char)
  | word (stop : List Char)
  | delimited (delimiter : Char)
  | operator (set : List Char)

/-- What an operation has found and the scanner behind it; one that finds nothing leaves the
scanner as it is. -/
def settle (s : Scanner) : Option (List Char × Scanner) → Option (List Char) × Scanner
  | some (text, t) => (some text, t)
  | none => (none, s)

/-- What a call returns, and the scanner behind it. -/
def call (s : Scanner) : Call → Option (List Char) × Scanner
  | .skip set => (none, s.skip set)
  | .word stop => s.settle (s.word? stop)
  | .delimited delimiter => s.settle (s.delimited? delimiter)
  | .operator set => s.settle (s.operator? set)

/-- The piece that a call takes from the front: what is there before and not behind. -/
def piece (s : Scanner) (c : Call) : List Char :=
  s.rest.take (s.rest.length - (s.call c).2.rest.length)

/-- The scanner behind calls in order. -/
def behind (s : Scanner) : List Call → Scanner
  | [] => s
  | c :: cs => (s.call c).2.behind cs

/-- The pieces that calls in order take. -/
def pieces (s : Scanner) : List Call → List (List Char)
  | [] => []
  | c :: cs => s.piece c :: (s.call c).2.pieces cs

/-- Nothing is left, or a character with the property comes next. -/
def Ahead (P : Char → Prop) (rest : List Char) : Prop :=
  ∀ c ∈ rest.head?, P c

/-- `c.Takes result piece rest`: in front of `piece ++ rest` the call `c` returns `result`,
takes the piece and leaves the rest. -/
inductive Call.Takes : Call → Option (List Char) → List Char → List Char → Prop where
  | skip {set piece rest} (all : ∀ c ∈ piece, c ∈ set) (ahead : Ahead (· ∉ set) rest) :
    Takes (.skip set) none piece rest
  | word {stop word rest} (left : word ++ rest ≠ []) (all : ∀ c ∈ word, c ∉ stop)
      (ahead : Ahead (· ∈ stop) rest) :
    Takes (.word stop) (some word) word rest
  | noWord {stop} : Takes (.word stop) none [] []
  | delimited {d text rest} (inside : d ∉ text) :
    Takes (.delimited d) (some text) (d :: text ++ [d]) rest
  | notDelimited {d rest} (unclosed : ∀ text rest', rest ≠ d :: text ++ d :: rest') :
    Takes (.delimited d) none [] rest
  | operator {set spelling rest} (found : spelling ≠ []) (all : ∀ c ∈ spelling, c ∈ set)
      (ahead : Ahead (· ∉ set) rest) :
    Takes (.operator set) (some spelling) spelling rest
  | noOperator {set rest} (ahead : Ahead (· ∉ set) rest) :
    Takes (.operator set) none [] rest

/-- The scanner `t` stands behind the piece that comes next at `s`. -/
structure Passes (s : Scanner) (piece : List Char) (t : Scanner) : Prop where
  rest : s.rest = piece ++ t.rest
  offset : t.offset = s.offset + Text.utf8Length piece

-- ============================================================================
-- One call
-- ============================================================================

section
variable {s t u : Scanner} {a b : List Char}

theorem passes_nil (s : Scanner) : s.Passes [] s :=
  ⟨rfl, rfl⟩

theorem Passes.eq_of_nil (h : s.Passes [] t) : t = s := by
  cases s
  cases t
  rw [Scanner.mk.injEq]
  exact ⟨h.offset, h.rest.symm⟩

theorem Passes.trans (h : s.Passes a t) (k : t.Passes b u) : s.Passes (a ++ b) u := by
  refine ⟨?_, ?_⟩
  · rw [h.rest, k.rest, List.append_assoc]
  · rw [k.offset, h.offset, Text.utf8Length_append, Nat.add_assoc]

theorem passes_run (p : Char → Bool) (s : Scanner) : s.Passes (s.run p).1 (s.run p).2 :=
  ⟨rest_run p s, rfl⟩

theorem passes_next {c : Char} {rest : List Char} (h : s.rest = c :: rest) :
    s.Passes [c] ⟨s.offset + c.utf8Size, rest⟩ :=
  ⟨h, by simp⟩

theorem forall_mem_run (p : Char → Bool) (s : Scanner) : ∀ c ∈ (s.run p).1, p c = true :=
  List.all_eq_true.1 List.all_takeWhile

theorem ahead_run (p : Char → Bool) (s : Scanner) : Ahead (p · = false) (s.run p).2.rest := by
  intro c hc
  have hstop := List.head?_dropWhile_not p s.rest
  rw [show (s.rest.dropWhile p).head? = some c from hc] at hstop
  exact hstop

theorem forall_mem_run_set (set : List Char) (s : Scanner) :
    ∀ c ∈ (s.run set.contains).1, c ∈ set := by
  intro c hc
  simpa using forall_mem_run set.contains s c hc

theorem ahead_run_set (set : List Char) (s : Scanner) :
    Ahead (· ∉ set) (s.run set.contains).2.rest := by
  intro c hc
  simpa using ahead_run set.contains s c hc

/-- What a call of the scanner returns and leaves is what it may return and leave, for the
piece that it takes. -/
def Does (s : Scanner) (c : Call) (outcome : Option (List Char) × Scanner) : Prop :=
  ∃ piece, c.Takes outcome.1 piece outcome.2.rest ∧ s.Passes piece outcome.2

theorem does_nothing {c : Call} (h : c.Takes none [] s.rest) : s.Does c (s.settle none) :=
  ⟨[], h, passes_nil s⟩

theorem does_skip (set : List Char) (s : Scanner) : s.Does (.skip set) (none, s.skip set) :=
  ⟨_, .skip (forall_mem_run_set set s) (ahead_run_set set s), passes_run set.contains s⟩

theorem does_word (stop : List Char) (s : Scanner) :
    s.Does (.word stop) (s.settle (s.word? stop)) := by
  unfold word?
  split
  · rename_i hempty
    refine does_nothing ?_
    rw [List.isEmpty_iff.1 hempty]
    exact .noWord
  · rename_i hleft
    have hpasses := passes_run (fun c => !stop.contains c) s
    refine ⟨_, .word ?_ (fun c hc => ?_) (fun c hc => ?_), hpasses⟩
    · exact hpasses.rest ▸ fun h => hleft (List.isEmpty_iff.2 h)
    · simpa using forall_mem_run _ s c hc
    · simpa using ahead_run _ s c hc

theorem does_operator (set : List Char) (s : Scanner) :
    s.Does (.operator set) (s.settle (s.operator? set)) := by
  have hpasses := passes_run set.contains s
  have hahead := ahead_run_set set s
  unfold operator?
  dsimp only
  split
  · rename_i hempty
    rw [List.isEmpty_iff.1 hempty] at hpasses
    rw [hpasses.eq_of_nil] at hahead
    exact does_nothing (.noOperator hahead)
  · rename_i hfound
    have hne : (s.run set.contains).1 ≠ [] := fun h => hfound (List.isEmpty_iff.2 h)
    exact ⟨_, .operator hne (forall_mem_run_set set s) hahead, hpasses⟩

theorem does_delimited (d : Char) (s : Scanner) :
    s.Does (.delimited d) (s.settle (s.delimited? d)) := by
  unfold delimited?
  split
  · rename_i hrest
    refine does_nothing (.notDelimited fun text rest' h => ?_)
    rw [hrest] at h
    cases h
  · rename_i c rest hrest
    split
    · rename_i hc
      subst hc
      dsimp only
      have hpasses := (passes_next hrest).trans (passes_run (· != c) _)
      have hall := forall_mem_run (· != c) ⟨s.offset + c.utf8Size, rest⟩
      have hahead := ahead_run (· != c) ⟨s.offset + c.utf8Size, rest⟩
      generalize run (· != c) ⟨s.offset + c.utf8Size, rest⟩ = r at hpasses hall hahead ⊢
      have hinside : c ∉ r.1 := fun hmem => by simpa using hall c hmem
      split
      · -- the run in search of a second delimiter has come to the end of the line
        rename_i hend
        refine does_nothing (.notDelimited fun text rest' h => hinside ?_)
        rw [hpasses.rest, hend, List.append_nil] at h
        have htext : r.1 = text ++ c :: rest' := (List.cons.inj h).2
        rw [htext]
        exact List.mem_append_right _ List.mem_cons_self
      · rename_i c' rest' hnext
        have hc' : c' = c := by simpa using hahead c' (by simp [hnext])
        subst hc'
        exact ⟨_, .delimited hinside, hpasses.trans (passes_next hnext)⟩
    · rename_i hc
      refine does_nothing (.notDelimited fun text rest' h => ?_)
      rw [hrest] at h
      exact hc (List.cons.inj h).1

/-- Every call does what it may do. -/
theorem does_call (s : Scanner) (c : Call) : s.Does c (s.call c) := by
  cases c with
  | skip set => exact does_skip set s
  | word stop => exact does_word stop s
  | delimited d => exact does_delimited d s
  | operator set => exact does_operator set s

theorem Passes.piece_eq {c : Call} (h : s.Passes a (s.call c).2) : s.piece c = a := by
  rw [piece, h.rest, List.length_append, Nat.add_sub_cancel, List.take_left]

/-- The piece of a call is what its outcome stands for, and the scanner goes behind it. -/
theorem call_takes (s : Scanner) (c : Call) :
    c.Takes (s.call c).1 (s.piece c) (s.call c).2.rest ∧ s.Passes (s.piece c) (s.call c).2 := by
  obtain ⟨piece, htakes, hpasses⟩ := does_call s c
  rw [hpasses.piece_eq]
  exact ⟨htakes, hpasses⟩

end

-- ============================================================================
-- Calls in order
-- ============================================================================

theorem passes_behind (s : Scanner) (cs : List Call) :
    s.Passes (s.pieces cs).flatten (s.behind cs) := by
  induction cs generalizing s with
  | nil => exact passes_nil s
  | cons c cs ih => exact (call_takes s c).2.trans (ih (s.call c).2)

/-- A call that returns nothing takes nothing, unless it is one that skips. -/
theorem Call.Takes.eq_nil {c : Call} {piece rest : List Char} (h : c.Takes none piece rest) :
    (∃ set, c = .skip set) ∨ piece = [] := by
  cases h with
  | skip => exact .inl ⟨_, rfl⟩
  | noWord | notDelimited | noOperator => exact .inr rfl

/-- A scanner loses and invents nothing.  Behind any calls the pieces that they took and what
is left make up the line, and in the encoding of the line what is left begins at the offset
of the scanner, where a character begins.  One more call never moves the offset back, takes
the piece that its result stands for, and leaves the scanner as it is if it returns nothing
and does not skip. -/
theorem nothing_lost (line : List Char) (calls : List Call) :
    let s := (ofLine line).behind calls
    line = ((ofLine line).pieces calls).flatten ++ s.rest ∧
    (∃ p : (String.ofList line).Pos, p.offset.byteIdx = s.offset ∧
      ((String.ofList line).sliceFrom p).copy = String.ofList s.rest) ∧
    ∀ c, s.offset ≤ (s.call c).2.offset ∧
      c.Takes (s.call c).1 (s.piece c) (s.call c).2.rest ∧
      ((s.call c).1 = none → (∃ set, c = .skip set) ∨ (s.call c).2 = s) := by
  intro s
  have hpasses : (ofLine line).Passes ((ofLine line).pieces calls).flatten s :=
    passes_behind (ofLine line) calls
  have hline : line = ((ofLine line).pieces calls).flatten ++ s.rest := hpasses.rest
  refine ⟨hline, ?_, fun c => ?_⟩
  · have hpos := Text.exists_pos ((ofLine line).pieces calls).flatten s.rest
    have hoffset : s.offset = Text.utf8Length ((ofLine line).pieces calls).flatten := by
      rw [hpasses.offset]
      exact Nat.zero_add _
    rwa [← hline, ← hoffset] at hpos
  · obtain ⟨htakes, hcall⟩ := call_takes s c
    refine ⟨?_, htakes, fun hnone => ?_⟩
    · rw [hcall.offset]
      exact Nat.le_add_right _ _
    · rw [hnone] at htakes
      refine htakes.eq_nil.imp_right fun hpiece => ?_
      rw [hpiece] at hcall
      exact hcall.eq_of_nil

end Scanner

end ScriptMachine
