/-
  ScriptMachine.Text.Blank

  Blank characters and trimming.  A character is blank when it has the Unicode
  property `White_Space`; trimming removes blank characters from the ends of a
  text and never from its inside.
-/

namespace ScriptMachine.Text

/-- The characters with the Unicode property `White_Space`. -/
def isBlank (c : Char) : Bool :=
  let n := c.toNat
  (9 ≤ n && n ≤ 13) || n == 0x20 || n == 0x85 || n == 0xA0 || n == 0x1680 ||
    (0x2000 ≤ n && n ≤ 0x200A) || n == 0x2028 || n == 0x2029 || n == 0x202F ||
    n == 0x205F || n == 0x3000

/-- Drops blank characters from the front. -/
def trimStart (cs : List Char) : List Char :=
  cs.dropWhile isBlank

/-- Drops blank characters from the back. -/
def trimEnd (cs : List Char) : List Char :=
  (cs.reverse.dropWhile isBlank).reverse

/-- Drops blank characters from both ends. -/
def trim (cs : List Char) : List Char :=
  trimEnd (trimStart cs)

/-- `trim` on strings. -/
def trimmed (s : String) : String :=
  String.ofList (trim s.toList)

/-! ## Small facts -/

/-- Every character that core calls white space is blank. -/
theorem isBlank_of_isWhitespace {c : Char} (h : c.isWhitespace = true) : isBlank c = true := by
  simp only [Char.isWhitespace, Bool.or_eq_true, decide_eq_true_eq] at h
  rcases h with ((rfl | rfl) | rfl) | rfl <;> decide

theorem trimStart_of_not_blank {c : Char} {cs : List Char} (h : isBlank c = false) :
    trimStart (c :: cs) = c :: cs := by
  simp [trimStart, h]

/-- What is trimmed from the back is a run of blank characters. -/
theorem trimEnd_append_blanks (cs : List Char) :
    ∃ bs, (∀ b ∈ bs, isBlank b = true) ∧ cs = trimEnd cs ++ bs := by
  refine ⟨(cs.reverse.takeWhile isBlank).reverse, ?_, ?_⟩
  · intro b hb
    simpa using List.all_eq_true.1 (List.all_takeWhile (p := isBlank) (l := cs.reverse)) b
      (by simpa using hb)
  · rw [trimEnd, ← List.reverse_append, List.takeWhile_append_dropWhile, List.reverse_reverse]

theorem trimEnd_append_of_blank {cs bs : List Char} (h : ∀ b ∈ bs, isBlank b = true) :
    trimEnd (cs ++ bs) = trimEnd cs := by
  have hback : ∀ b ∈ bs.reverse, isBlank b = true := fun b hb => h b (List.mem_reverse.1 hb)
  rw [trimEnd, List.reverse_append, List.dropWhile_append_of_pos hback]
  rfl

theorem trimEnd_of_not_blank {cs : List Char} (h : ∀ c ∈ cs, isBlank c = false) :
    trimEnd cs = cs := by
  obtain ⟨bs, hbs, heq⟩ := trimEnd_append_blanks cs
  cases bs with
  | nil =>
    rw [List.append_nil] at heq
    exact heq.symm
  | cons b bs =>
    have hmem : b ∈ cs := heq ▸ List.mem_append_right _ List.mem_cons_self
    have hblank := hbs b List.mem_cons_self
    rw [h b hmem] at hblank
    cases hblank

/-- Trimming takes away the blank characters around a word that has none. -/
theorem trim_around {as cs bs : List Char} (has : ∀ a ∈ as, isBlank a = true)
    (hcs : ∀ c ∈ cs, isBlank c = false) (hbs : ∀ b ∈ bs, isBlank b = true) :
    trim (as ++ (cs ++ bs)) = cs := by
  rw [trim, trimStart, List.dropWhile_append_of_pos has]
  cases cs with
  | nil =>
    have hnone : (bs ++ []).dropWhile isBlank = [] := List.dropWhile_append_of_pos hbs
    rw [List.append_nil] at hnone
    rw [List.nil_append, hnone]
    rfl
  | cons c cs =>
    have hstart : (c :: (cs ++ bs)).dropWhile isBlank = c :: (cs ++ bs) :=
      trimStart_of_not_blank (hcs c List.mem_cons_self)
    rw [List.cons_append, hstart, ← List.cons_append, trimEnd_append_of_blank hbs,
      trimEnd_of_not_blank hcs]

end ScriptMachine.Text
