/-
  ScriptMachine.Proofs.Parentheses.Nests

  Lines with parentheses, as trees.  Parentheses inside strings are text; the others open
  and close groups.  A nest is a text with its groups (`Nest`), and a line is balanced when
  every closing parenthesis has an opening one in front of it and none stays open
  (`Balanced`).  Each line is one of three: the text of a nest, a nest with a closing
  parenthesis behind it that matches none, or a text with a group that stays open
  (`nest_or_unmatched`).  The balanced lines are the texts of nests
  (`balanced_iff_exists_nest`), each of one nest only (`Nest.Stands.unique`).
-/

import ScriptMachine.Text.Length

namespace ScriptMachine.Source

/-! ## Outside of strings -/

/-- Whether a string is open behind a character. -/
def toggle (quoted : Bool) (c : Char) : Bool :=
  if c = '"' then !quoted else quoted

/-- Whether a string is open behind a text. -/
def quotedAfter (quoted : Bool) (cs : List Char) : Bool :=
  cs.foldl toggle quoted

/-- The characters of a text that stand outside of strings, without the quotes. -/
def outside (quoted : Bool) : List Char → List Char
  | [] => []
  | c :: cs =>
    if quoted ∨ c = '"' then outside (toggle quoted c) cs
    else c :: outside (toggle quoted c) cs

/-- Number of groups that a text opens. -/
def opens (cs : List Char) : Nat :=
  (outside false cs).count '('

/-- Number of closing parentheses outside of strings. -/
def closes (cs : List Char) : Nat :=
  (outside false cs).count ')'

/-- In front of any place in a text, no more groups were closed than opened. -/
def Matched (quoted : Bool) (cs : List Char) : Prop :=
  ∀ p, p <+: cs → (outside quoted p).count ')' ≤ (outside quoted p).count '('

/-- Every closing parenthesis has an opening one in front of it, and none stays open. -/
structure Balanced (line : List Char) : Prop where
  matched : ∀ p, p <+: line → closes p ≤ opens p
  closed : closes line = opens line

@[simp] theorem quotedAfter_nil (quoted : Bool) : quotedAfter quoted [] = quoted := rfl

@[simp] theorem quotedAfter_cons (quoted : Bool) (c : Char) (cs : List Char) :
    quotedAfter quoted (c :: cs) = quotedAfter (toggle quoted c) cs := rfl

@[simp] theorem quotedAfter_append (quoted : Bool) (as bs : List Char) :
    quotedAfter quoted (as ++ bs) = quotedAfter (quotedAfter quoted as) bs :=
  List.foldl_append

@[simp] theorem toggle_open (quoted : Bool) : toggle quoted '(' = quoted := rfl

@[simp] theorem toggle_close (quoted : Bool) : toggle quoted ')' = quoted := rfl

@[simp] theorem outside_nil (quoted : Bool) : outside quoted [] = [] := rfl

@[simp] theorem outside_open (cs : List Char) :
    outside false ('(' :: cs) = '(' :: outside false cs := rfl

@[simp] theorem outside_close (cs : List Char) :
    outside false (')' :: cs) = ')' :: outside false cs := rfl

theorem outside_append (quoted : Bool) (as bs : List Char) :
    outside quoted (as ++ bs) = outside quoted as ++ outside (quotedAfter quoted as) bs := by
  induction as generalizing quoted with
  | nil => rfl
  | cons a as ih =>
    rw [List.cons_append, outside, outside, ih, quotedAfter_cons]
    split
    · rfl
    · rfl

/-- Characters other than an outside parenthesis do not count. -/
theorem count_outside_cons {quoted : Bool} {c d : Char}
    (hc : quoted = false → c ≠ d) (cs : List Char) :
    (outside quoted (c :: cs)).count d = (outside (toggle quoted c) cs).count d := by
  rw [outside]
  split
  · rfl
  · rename_i hplain
    have hquoted : quoted = false := by
      rw [← Bool.not_eq_true]
      exact fun h => hplain (.inl h)
    exact List.count_cons_of_ne (hc hquoted)

/-- A piece at the start of two texts lies in the first, or goes on into the second. -/
theorem prefix_append_cases {as bs p : List Char} (h : p <+: as ++ bs) :
    p <+: as ∨ ∃ r, p = as ++ r ∧ r <+: bs := by
  obtain ⟨s, hs⟩ := h
  rcases List.append_eq_append_iff.1 hs with ⟨r, has, _⟩ | ⟨r, hp, hbs⟩
  · exact .inl ⟨r, has.symm⟩
  · exact .inr ⟨r, hp, s, hbs.symm⟩

/-! ## Nests -/

/-- A text with its groups. -/
inductive Nest where
  | nil
  | char (c : Char) (rest : Nest)
  | group (inner rest : Nest)

namespace Nest

/-- The text of a nest, with a pair of parentheses around each group. -/
def text : Nest → List Char
  | nil => []
  | char c rest => c :: rest.text
  | group inner rest => '(' :: (inner.text ++ ')' :: rest.text)

/-- Number of groups. -/
def groups : Nest → Nat
  | nil => 0
  | char _ rest => rest.groups
  | group inner rest => 1 + inner.groups + rest.groups

/-- Groups open and close outside of strings, where there are no other parentheses.  The
two flags say whether a string is open before and behind the nest. -/
inductive Stands : Bool → Nest → Bool → Prop where
  | nil (q : Bool) : Stands q .nil q
  | char {c : Char} {rest : Nest} {q q' : Bool} (hc : q = false → c ≠ '(' ∧ c ≠ ')')
      (h : Stands (toggle q c) rest q') : Stands q (.char c rest) q'
  | group {inner rest : Nest} {q : Bool} (hinner : Stands false inner false)
      (hrest : Stands false rest q) : Stands false (.group inner rest) q

section
variable {t u : Nest} {q q' : Bool}

theorem Stands.quotedAfter (h : t.Stands q q') : quotedAfter q t.text = q' := by
  induction h with
  | nil q => rfl
  | char _ _ ih => exact ih
  | group _ _ ihinner ihrest => simp [text, ihinner, ihrest]

/-- Each group has one parenthesis of either kind outside of strings. -/
theorem Stands.count (h : t.Stands q q') :
    (outside q t.text).count '(' = t.groups ∧ (outside q t.text).count ')' = t.groups := by
  induction h with
  | nil q => exact ⟨rfl, rfl⟩
  | @char c rest q q' hc _ ih =>
    rw [text, count_outside_cons fun hq => (hc hq).1, count_outside_cons fun hq => (hc hq).2]
    exact ih
  | @group inner rest q hinner _ ihinner ihrest =>
    simp only [text, outside_open, outside_append, hinner.quotedAfter, outside_close,
      List.count_cons, List.count_append, ihinner, ihrest, groups]
    simp only [Char.reduceBEq, if_true, Bool.false_eq_true, if_false]
    omega

theorem Stands.matched (h : t.Stands q q') : Matched q t.text := by
  induction h with
  | nil q =>
    intro p hp
    rw [List.prefix_nil.1 hp]
    exact Nat.le_refl _
  | @char c rest q q' hc _ ih =>
    intro p hp
    rw [text] at hp
    rcases List.prefix_cons_iff.1 hp with rfl | ⟨r, rfl, hr⟩
    · exact Nat.le_refl _
    · rw [count_outside_cons fun hq => (hc hq).1, count_outside_cons fun hq => (hc hq).2]
      exact ih r hr
  | @group inner rest q hinner hrest ihinner ihrest =>
    intro p hp
    rw [text] at hp
    rcases List.prefix_cons_iff.1 hp with rfl | ⟨p, rfl, hp'⟩
    · exact Nat.le_refl _
    -- the place is inside the group, or behind its closing parenthesis
    rcases prefix_append_cases hp' with hp | ⟨r, rfl, hr⟩
    · have hle := ihinner p hp
      simp only [outside_open, List.count_cons, Char.reduceBEq, if_true, Bool.false_eq_true,
        if_false]
      omega
    · obtain ⟨hopen, hclose⟩ := hinner.count
      rcases List.prefix_cons_iff.1 hr with rfl | ⟨r, rfl, hr'⟩
      · simp [hopen, hclose]
      · have hle := ihrest r hr'
        simp only [outside_open, outside_append, hinner.quotedAfter, outside_close,
          List.count_cons, List.count_append, hopen, hclose, Char.reduceBEq, if_true,
          Bool.false_eq_true, if_false]
        omega

theorem Stands.balanced (h : t.Stands false q) : Balanced t.text where
  matched := h.matched
  closed := by
    obtain ⟨hopen, hclose⟩ := h.count
    rw [closes, opens, hopen, hclose]

/-- A nest is known by its text, also when the closing parenthesis of a group around it
stands behind it. -/
theorem Stands.unique {q₁ q₂ : Bool} (ht : t.Stands q q₁) (hu : u.Stands q q₂)
    {v w : List Char} (hv : v = [] ∨ q₁ = false ∧ v.head? = some ')')
    (hw : w = [] ∨ q₂ = false ∧ w.head? = some ')') (h : t.text ++ v = u.text ++ w) :
    t = u ∧ v = w := by
  induction ht generalizing u v w q₂ with
  | nil q =>
    cases hu with
    | nil => exact ⟨rfl, h⟩
    | char hc _ =>
      rcases hv with rfl | ⟨rfl, hv⟩
      · cases h
      · rw [show v = _ from h] at hv
        exact absurd (Option.some.inj hv) (hc rfl).2
    | group _ _ =>
      rcases hv with rfl | ⟨_, hv⟩
      · cases h
      · rw [show v = _ from h] at hv
        exact absurd (Option.some.inj hv) (by decide)
  | @char c rest q q' hc _ ih =>
    cases hu with
    | nil =>
      rcases hw with rfl | ⟨rfl, hw⟩
      · cases h
      · rw [← show _ = w from h] at hw
        exact absurd (Option.some.inj hw) (hc rfl).2
    | char _ hu =>
      obtain ⟨rfl, hrest⟩ := List.cons.inj h
      obtain ⟨rfl, rfl⟩ := ih hu hv hw hrest
      exact ⟨rfl, rfl⟩
    | group _ _ => exact absurd (List.cons.inj h).1 (hc rfl).1
  | @group inner rest q _ _ ihinner ihrest =>
    cases hu with
    | nil =>
      rcases hw with rfl | ⟨_, hw⟩
      · cases h
      · rw [← show _ = w from h] at hw
        exact absurd (Option.some.inj hw) (by decide)
    | char hc _ => exact absurd (List.cons.inj h).1.symm (hc rfl).1
    | @group inner' rest' _ hinner' hrest' =>
      simp only [text, List.cons_append, List.append_assoc, List.cons.injEq, true_and] at h
      obtain ⟨rfl, hclose⟩ := ihinner hinner' (.inr ⟨rfl, rfl⟩) (.inr ⟨rfl, rfl⟩) h
      obtain ⟨rfl, rfl⟩ := ihrest hrest' hv hw (List.cons.inj hclose).2
      exact ⟨rfl, rfl⟩

end

end Nest

/-! ## Lines -/

/-- A text with a group that stays open. -/
inductive Unclosed : Bool → List Char → Prop where
  | last {t u : Nest} {q q' : Bool} (ht : t.Stands q false) (hu : u.Stands false q') :
      Unclosed q (t.text ++ '(' :: u.text)
  | inside {t : Nest} {q : Bool} {cs : List Char} (ht : t.Stands q false)
      (h : Unclosed false cs) : Unclosed q (t.text ++ '(' :: cs)

section
variable {q : Bool} {cs : List Char}

theorem Unclosed.char {c : Char} (hc : q = false → c ≠ '(' ∧ c ≠ ')')
    (h : Unclosed (toggle q c) cs) : Unclosed q (c :: cs) := by
  cases h with
  | last ht hu => exact .last (.char hc ht) hu
  | inside ht h => exact .inside (.char hc ht) h

theorem Unclosed.group {t : Nest} (ht : t.Stands false false) (h : Unclosed false cs) :
    Unclosed false ('(' :: (t.text ++ ')' :: cs)) := by
  cases h with
  | @last u v _ _ hu hv =>
    have hlast := Unclosed.last (.group ht hu) hv
    simpa [Nest.text] using hlast
  | @inside u _ cs hu h =>
    have hinside := Unclosed.inside (.group ht hu) h
    simpa [Nest.text] using hinside

/-- A group that opens behind a nest. -/
theorem Nest.Stands.matched_open {t : Nest} (ht : t.Stands q false) (h : Matched false cs) :
    Matched q (t.text ++ '(' :: cs) := by
  intro p hp
  rcases prefix_append_cases hp with hp | ⟨r, rfl, hr⟩
  · exact ht.matched p hp
  obtain ⟨hopen, hclose⟩ := ht.count
  rcases List.prefix_cons_iff.1 hr with rfl | ⟨r, rfl, hr'⟩
  · simp [hopen, hclose]
  · have hle := h r hr'
    simp only [outside_append, ht.quotedAfter, outside_open, List.count_append, List.count_cons,
      hopen, hclose, Char.reduceBEq, if_true, Bool.false_eq_true, if_false]
    omega

theorem Nest.Stands.count_open {t : Nest} (ht : t.Stands q false)
    (h : (outside false cs).count ')' ≤ (outside false cs).count '(') :
    (outside q (t.text ++ '(' :: cs)).count ')' < (outside q (t.text ++ '(' :: cs)).count '(' := by
  obtain ⟨hopen, hclose⟩ := ht.count
  simp only [outside_append, ht.quotedAfter, outside_open, List.count_append, List.count_cons,
    hopen, hclose, Char.reduceBEq, if_true, Bool.false_eq_true, if_false]
  omega

/-- Every closing parenthesis has an opening one in front of it, but there are more opening
ones. -/
theorem Unclosed.count (h : Unclosed q cs) :
    Matched q cs ∧ (outside q cs).count ')' < (outside q cs).count '(' := by
  induction h with
  | last ht hu =>
    obtain ⟨hopen, hclose⟩ := hu.count
    exact ⟨ht.matched_open hu.matched, ht.count_open (by omega)⟩
  | inside ht _ ih => exact ⟨ht.matched_open ih.1, ht.count_open (Nat.le_of_lt ih.2)⟩

end

/-- Each line is the text of a nest, or has a closing parenthesis behind a nest, or has a
group that stays open. -/
theorem nest_or_unmatched (q : Bool) (line : List Char) :
    (∃ (t : Nest) (q' : Bool), t.Stands q q' ∧ line = t.text) ∨
      (∃ (t : Nest) (rest : List Char), t.Stands q false ∧ line = t.text ++ ')' :: rest) ∨
      Unclosed q line := by
  match line with
  | [] => exact .inl ⟨.nil, q, .nil q, rfl⟩
  | c :: cs =>
    by_cases hplain : q = false → c ≠ '(' ∧ c ≠ ')'
    · rcases nest_or_unmatched (toggle q c) cs with ⟨t, q', ht, rfl⟩ | ⟨t, rest, ht, rfl⟩ | h
      · exact .inl ⟨.char c t, q', .char hplain ht, rfl⟩
      · exact .inr (.inl ⟨.char c t, rest, .char hplain ht, rfl⟩)
      · exact .inr (.inr (h.char hplain))
    obtain ⟨rfl, hparen⟩ : q = false ∧ (c = '(' ∨ c = ')') := by
      simpa [Decidable.or_iff_not_imp_left] using hplain
    rcases hparen with rfl | rfl
    · -- a group opens; what follows closes it or leaves it open
      rcases nest_or_unmatched false cs with ⟨t, q', ht, rfl⟩ | ⟨t, rest, ht, hcs⟩ | h
      · exact .inr (.inr (.last (.nil false) ht))
      · have hlt : rest.length < cs.length + 1 := by
          rw [hcs, List.length_append, List.length_cons]
          omega
        subst hcs
        rcases nest_or_unmatched false rest with ⟨u, q', hu, rfl⟩ | ⟨u, rest, hu, rfl⟩ | h
        · exact .inl ⟨.group t u, q', .group ht hu, rfl⟩
        · exact .inr (.inl ⟨.group t u, rest, .group ht hu, by simp [Nest.text]⟩)
        · exact .inr (.inr (h.group ht))
      · exact .inr (.inr (.inside (.nil false) h))
    · exact .inr (.inl ⟨.nil, cs, .nil false, rfl⟩)
termination_by line.length

/-- Behind a nest, a closing parenthesis has none in front of it that it matches. -/
theorem not_matched_of_unmatched {t : Nest} (ht : t.Stands false false) (rest : List Char) :
    ¬ Matched false (t.text ++ ')' :: rest) := by
  intro h
  obtain ⟨hopen, hclose⟩ := ht.count
  have hle := h (t.text ++ [')']) ⟨rest, by simp⟩
  simp only [outside_append, ht.quotedAfter, outside_close, outside_nil,
    List.count_append, hopen, hclose, List.count_cons, List.count_nil, Char.reduceBEq, if_true,
    Bool.false_eq_true, if_false] at hle
  omega

theorem Unclosed.not_balanced {line : List Char} (h : Unclosed false line) : ¬ Balanced line := by
  intro hb
  have hlt : closes line < opens line := h.count.2
  have heq := hb.closed
  omega

/-- The balanced lines are the texts of nests. -/
theorem balanced_iff_exists_nest {line : List Char} :
    Balanced line ↔ ∃ (t : Nest) (q : Bool), t.Stands false q ∧ line = t.text := by
  constructor
  · intro h
    rcases nest_or_unmatched false line with hnest | ⟨t, rest, ht, rfl⟩ | hunclosed
    · exact hnest
    · exact absurd h.matched (not_matched_of_unmatched ht rest)
    · exact absurd h hunclosed.not_balanced
  · rintro ⟨t, q, ht, rfl⟩
    exact ht.balanced

end ScriptMachine.Source
