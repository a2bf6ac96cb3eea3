/-
  ScriptMachine.Proofs.Spacing.Fronts

  Lines taken apart, seen from their fronts.  The text of a line up to its first
  parenthesis is the front of its last statement; all statements before that are the
  groups, each of which assigns to a temporary (`Source.statements_front`).  Lines that
  differ in their fronts only have the same groups (`Source.statements_fronts`).
-/

import ScriptMachine.Proofs.Structured.Drafts

namespace ScriptMachine

namespace Source

/-! ## Groups -/

theorem Grouping.temporary_ne_nil (stem : String) (n : Nat) : temporary stem n ≠ [] := by
  simp [temporary, Nat.toDigits_ne_nil]

open Structured in
/-- No character of a temporary ends the first word of a statement. -/
theorem Grouping.contains_of_mem_temporary {stem : String}
    (hstem : ∀ d ∈ stem.toList, ('%' :: Compile.headStop).contains d = false) {n : Nat} {d : Char}
    (hd : d ∈ temporary stem n) : ('%' :: Compile.headStop).contains d = false := by
  rcases List.mem_append.1 hd with hd | hd
  · exact hstem d hd
  · exact contains_of_isOrdinary (isOrdinary_of_isDigit
      (Nat.isDigit_of_mem_toDigits (by decide) (by decide) hd)) (by decide)

/-- The statement of a group: it assigns to a temporary. -/
def IsGroup (stem : String) (text : List Char) : Prop :=
  ∃ n rest, text = Grouping.temporary stem n ++ '=' :: rest

theorem IsGroup.append {stem : String} {text : List Char} (h : IsGroup stem text)
    (cs : List Char) : IsGroup stem (text ++ cs) := by
  obtain ⟨n, rest, rfl⟩ := h
  exact ⟨n, rest ++ cs, by simp⟩

/-! ## Lines with different fronts, taken apart -/

namespace Grouping

/-- The texts of two lines, innermost first and reversed: the groups are the same, and
the outermost texts differ only in their fronts `p` and `q`. -/
def Fronts (stem : String) (p q : List Char) (ts ts' : List (List Char)) : Prop :=
  ∃ us u, ts = us ++ [u ++ p] ∧ ts' = us ++ [u ++ q] ∧ ∀ s ∈ us, IsGroup stem s.reverse

section
variable {stem : String} {p q t t' : List Char} {ts ts' : List (List Char)}

/-- Text that goes into the innermost one. -/
theorem Fronts.push (h : Fronts stem p q (t :: ts) (t' :: ts')) (cs : List Char) :
    Fronts stem p q ((cs ++ t) :: ts) ((cs ++ t') :: ts') := by
  obtain ⟨us, u, ht, ht', hus⟩ := h
  cases us with
  | nil =>
    cases ht
    cases ht'
    exact ⟨[], cs ++ u, by simp, by simp, by simp⟩
  | cons s us =>
    cases ht
    cases ht'
    obtain ⟨hs, hmore⟩ := List.forall_mem_cons.1 hus
    refine ⟨(cs ++ t) :: us, u, rfl, rfl, List.forall_mem_cons.2 ⟨?_, hmore⟩⟩
    rw [List.reverse_append]
    exact hs.append cs.reverse

/-- A group opens inside the innermost text. -/
theorem Fronts.group (h : Fronts stem p q (t :: ts) (t' :: ts')) (n : Nat) :
    Fronts stem p q (('=' :: (temporary stem n).reverse) :: t :: ts)
      (('=' :: (temporary stem n).reverse) :: t' :: ts') := by
  obtain ⟨us, u, ht, ht', hus⟩ := h
  refine ⟨('=' :: (temporary stem n).reverse) :: us, u, by simp [ht], by simp [ht'],
    List.forall_mem_cons.2 ⟨⟨n, [], by simp⟩, hus⟩⟩

/-- The innermost text is the outermost one in both lines, or the same group. -/
theorem Fronts.inner (h : Fronts stem p q (t :: ts) (t' :: ts')) :
    (ts = [] ∧ ts' = [] ∧ ∃ u, t = u ++ p ∧ t' = u ++ q) ∨
      t' = t ∧ IsGroup stem t.reverse ∧ ∃ o os o' os', ts = o :: os ∧ ts' = o' :: os' ∧
        Fronts stem p q (o :: os) (o' :: os') := by
  obtain ⟨us, u, ht, ht', hus⟩ := h
  cases us with
  | nil =>
    cases ht
    cases ht'
    exact .inl ⟨rfl, rfl, u, rfl, rfl⟩
  | cons s us =>
    obtain ⟨hs, hmore⟩ := List.forall_mem_cons.1 hus
    obtain ⟨rfl, rfl⟩ := List.cons.inj ht
    obtain ⟨rfl, rfl⟩ := List.cons.inj ht'
    refine .inr ⟨rfl, hs, ?_⟩
    cases us with
    | nil => exact ⟨_, _, _, _, rfl, rfl, [], u, rfl, rfl, hmore⟩
    | cons r us => exact ⟨_, _, _, _, rfl, rfl, r :: us, u, rfl, rfl, hmore⟩

end

/-- Two lines that are taken apart alike. -/
structure Alike (stem : String) (p q : List Char) (g g' : Grouping) : Prop where
  finished : g'.finished = g.finished
  quoted : g'.quoted = g.quoted
  opened : g'.opened = g.opened
  groups : ∀ s ∈ g.finished, IsGroup stem s
  texts : Fronts stem p q (g.current :: g.around) (g'.current :: g'.around)

variable {stem : String} {p q : List Char} {g g' : Grouping}

/-- One character: both lines go on alike, or neither does. -/
theorem Alike.next (h : Alike stem p q g g') (c : Char) :
    (∃ k k', g.next stem c = .ok k ∧ g'.next stem c = .ok k' ∧ Alike stem p q k k') ∨
      (∃ e, g.next stem c = .error e) ∧ ∃ e, g'.next stem c = .error e := by
  obtain ⟨finished, around, current, quoted, opened, column⟩ := g
  obtain ⟨finished', around', current', quoted', opened', column'⟩ := g'
  obtain ⟨rfl, rfl, rfl, hgroups, htexts⟩ := h
  dsimp only at hgroups htexts
  unfold Grouping.next
  dsimp only
  split
  · exact .inl ⟨_, _, rfl, rfl, rfl, rfl, rfl, hgroups, htexts.push [c]⟩
  split
  · exact .inl ⟨_, _, rfl, rfl, rfl, rfl, rfl, hgroups, htexts.push [c]⟩
  split
  · refine .inl ⟨_, _, rfl, rfl, rfl, rfl, rfl, hgroups, ?_⟩
    have hpush := htexts.push ((temporary stem opened').reverse ++ [' '])
    simp only [List.append_assoc, List.singleton_append] at hpush
    exact hpush.group opened'
  split
  · rcases htexts.inner with ⟨rfl, rfl, _⟩ | ⟨rfl, hgroup, o, os, o', os', rfl, rfl, houter⟩
    · exact .inr ⟨⟨_, rfl⟩, ⟨_, rfl⟩⟩
    · exact .inl ⟨_, _, rfl, rfl, rfl, rfl, rfl, List.forall_mem_cons.2 ⟨hgroup, hgroups⟩, houter⟩
  · exact .inl ⟨_, _, rfl, rfl, rfl, rfl, rfl, hgroups, htexts.push [c]⟩

/-- The rest of both lines. -/
theorem Alike.foldlM (h : Alike stem p q g g') (cs : List Char) :
    (∃ k k', cs.foldlM (Grouping.next stem) g = .ok k ∧
        cs.foldlM (Grouping.next stem) g' = .ok k' ∧ Alike stem p q k k') ∨
      (∃ e, cs.foldlM (Grouping.next stem) g = .error e) ∧
        ∃ e, cs.foldlM (Grouping.next stem) g' = .error e := by
  induction cs generalizing g g' with
  | nil => exact .inl ⟨g, g', rfl, rfl, h⟩
  | cons c cs ih =>
    rw [List.foldlM_cons, List.foldlM_cons]
    rcases h.next c with ⟨k, k', hk, hk', halike⟩ | ⟨⟨e, he⟩, ⟨e', he'⟩⟩
    · rw [hk, hk']
      exact ih halike
    · rw [he, he']
      exact .inr ⟨⟨e, rfl⟩, ⟨e', rfl⟩⟩

end Grouping

/-- A front that goes into the outermost text as it is. -/
theorem foldlM_front (stem : String) {front : List Char}
    (hfront : ∀ c ∈ front, c ≠ '"' ∧ c ≠ '(' ∧ c ≠ ')') (current : List Char) (column : Nat) :
    ∃ column', front.foldlM (Grouping.next stem) { current, column } =
      .ok { current := front.reverse ++ current, column := column' } := by
  induction front generalizing current column with
  | nil => exact ⟨column, rfl⟩
  | cons c front ih =>
    obtain ⟨⟨hquote, hopen, hclose⟩, hfront⟩ := List.forall_mem_cons.1 hfront
    obtain ⟨column', hcolumn⟩ := ih hfront (c :: current) (column + c.utf8Size)
    refine ⟨column', ?_⟩
    have hnext : Grouping.next stem { current, column } c =
        .ok { current := c :: current, column := column + c.utf8Size } := by
      simp [Grouping.next, hquote, hopen, hclose]
    rw [List.foldlM_cons, hnext]
    simpa [bind, Except.bind] using hcolumn

/-- Lines that differ in their fronts only have the same groups, and what is left of them
differs in its front only; or neither can be taken apart. -/
theorem statements_fronts (stem : String) {p q : List Char}
    (hp : ∀ c ∈ p, c ≠ '"' ∧ c ≠ '(' ∧ c ≠ ')') (hq : ∀ c ∈ q, c ≠ '"' ∧ c ≠ '(' ∧ c ≠ ')')
    {rest : List Char} (hrest : ∀ c ∈ rest.head?, c ≠ '(' ∧ c ≠ ')') :
    (∃ fs v, statements stem (p ++ rest) = .ok (fs ++ [p ++ v]) ∧
        statements stem (q ++ rest) = .ok (fs ++ [q ++ v]) ∧
        (∀ s ∈ fs, IsGroup stem s) ∧ v.head? = rest.head?) ∨
      (∃ e, statements stem (p ++ rest) = .error e) ∧
        ∃ e, statements stem (q ++ rest) = .error e := by
  obtain ⟨column, hp⟩ := foldlM_front stem hp [] 0
  obtain ⟨column', hq⟩ := foldlM_front stem hq [] 0
  unfold statements
  rw [List.foldlM_append, List.foldlM_append, hp, hq]
  simp only [bind, Except.bind, List.append_nil]
  cases rest with
  | nil =>
    exact .inl ⟨[], [], by simp [pure, Except.pure], by simp [pure, Except.pure], by simp, rfl⟩
  | cons c rest =>
    -- the first character behind the fronts never opens or closes a group
    obtain ⟨hopen, hclose⟩ := hrest c rfl
    have hfirst : ∀ (front : List Char) (column : Nat),
        Grouping.next stem { current := front, column } c =
          .ok { current := c :: front, quoted := c == '"', column := column + c.utf8Size } := by
      intro front column
      by_cases hquote : c = '"' <;> simp [Grouping.next, hquote, hopen, hclose]
    rw [List.foldlM_cons, List.foldlM_cons, hfirst, hfirst]
    simp only [bind, Except.bind]
    have halike : Grouping.Alike stem (c :: p.reverse) (c :: q.reverse)
        { current := c :: p.reverse, quoted := c == '"', column := column + c.utf8Size }
        { current := c :: q.reverse, quoted := c == '"', column := column' + c.utf8Size } :=
      ⟨rfl, rfl, rfl, by simp, [], [], by simp, by simp, by simp⟩
    rcases halike.foldlM rest with ⟨k, k', hk, hk', halike⟩ | ⟨⟨e, he⟩, ⟨e', he'⟩⟩
    · rw [hk, hk']
      dsimp only
      rcases halike.texts.inner with
        ⟨haround, haround', u, hu, hu'⟩ | ⟨_, _, o, os, o', os', ho, ho', _⟩
      · rw [haround, haround', hu, hu', halike.finished]
        refine .inl ⟨k.finished.reverse, c :: u.reverse, ?_, ?_, ?_, rfl⟩
        · simp [pure, Except.pure]
        · simp [pure, Except.pure]
        · intro s hs
          exact halike.groups s (by simpa using hs)
      · rw [ho, ho']
        exact .inr ⟨⟨_, rfl⟩, ⟨_, rfl⟩⟩
    · rw [he, he']
      exact .inr ⟨⟨e, rfl⟩, ⟨e', rfl⟩⟩

/-! ## Lines taken apart behind a front -/

/-- Outside of groups, what opens none goes into the outermost text as it is; a closing
parenthesis has nothing to close. -/
theorem next_unopened (stem : String) (current : List Char) {quoted : Bool} (column : Nat)
    {c : Char} (hopen : ¬(quoted = false ∧ c = '(')) :
    (∃ quoted', Grouping.next stem { current, quoted, column } c =
        .ok { current := c :: current, quoted := quoted', column := column + c.utf8Size }) ∨
      ∃ e, Grouping.next stem { current, quoted, column } c = .error e := by
  cases quoted with
  | true => exact .inl ⟨c != '"', by simp [Grouping.next]⟩
  | false =>
    have hopen : c ≠ '(' := fun hc => hopen ⟨rfl, hc⟩
    by_cases hquote : c = '"'
    · exact .inl ⟨true, by simp [Grouping.next, hquote]⟩
    by_cases hclose : c = ')'
    · subst hclose
      exact .inr ⟨_, rfl⟩
    · exact .inl ⟨false, by simp [Grouping.next, hquote, hopen, hclose]⟩

/-- A front without an opening parenthesis goes into the outermost text as it is. -/
theorem foldlM_unopened (stem : String) {front : List Char} (hfront : ∀ c ∈ front, c ≠ '(')
    {current : List Char} {quoted : Bool} {column : Nat} {g : Grouping}
    (h : front.foldlM (Grouping.next stem) { current, quoted, column } = .ok g) :
    ∃ quoted' column', g =
      { current := front.reverse ++ current, quoted := quoted', column := column' } := by
  induction front generalizing current quoted column with
  | nil =>
    obtain rfl := Except.ok.inj h
    exact ⟨quoted, column, rfl⟩
  | cons c front ih =>
    obtain ⟨hopen, hfront⟩ := List.forall_mem_cons.1 hfront
    rw [List.foldlM_cons] at h
    have hopen : ¬(quoted = false ∧ c = '(') := fun hq => hopen hq.2
    rcases next_unopened stem current column hopen with ⟨quoted', hnext⟩ | ⟨e, hnext⟩
    · rw [hnext] at h
      obtain ⟨quoted'', column'', rfl⟩ := ih hfront h
      exact ⟨quoted'', column'', by simp⟩
    · rw [hnext] at h
      cases h

/-- The end of a line whose outermost text starts with a front. -/
theorem statements_of_alike {stem : String} {front : List Char} {d : Char} {g : Grouping}
    (hg : Grouping.Alike stem (d :: front.reverse) (d :: front.reverse) g g) {rest : List Char}
    {ss : List (List Char)}
    (h : (do
      let g ← rest.foldlM (Grouping.next stem) g
      if g.around.isEmpty then
        return (g.current.reverse :: g.finished).reverse
      else
        throw ((Error.of .missingParenthesis).inColumns g.column g.column) :
          Except Error (List (List Char))) = .ok ss) :
    ∃ groups u, ss = groups ++ [front ++ d :: u] ∧ ∀ s ∈ groups, IsGroup stem s := by
  rcases hg.foldlM rest with ⟨k, _, hk, _, halike⟩ | ⟨⟨e, he⟩, _⟩
  · rw [hk] at h
    simp only [bind, Except.bind] at h
    rcases halike.texts.inner with ⟨haround, _, u, hu, _⟩ | ⟨_, _, o, os, _, _, ho, _, _⟩
    · rw [haround, hu] at h
      obtain rfl := Except.ok.inj h
      refine ⟨k.finished.reverse, u.reverse, by simp, fun s hs => ?_⟩
      exact halike.groups s (List.mem_reverse.1 hs)
    · rw [ho] at h
      cases h
  · rw [he] at h
    cases h

/-- A line is taken apart into its groups and what is left of it.  That starts with the
front of the line, and goes on as the line does or with a blank for a group. -/
theorem statements_front (stem : String) {front rest : List Char} (hfront : ∀ c ∈ front, c ≠ '(')
    {ss : List (List Char)} (h : statements stem (front ++ rest) = .ok ss) :
    ∃ groups v, ss = groups ++ [front ++ v] ∧ (∀ s ∈ groups, IsGroup stem s) ∧
      (v.head? = rest.head? ∨ v.head? = some ' ') := by
  unfold statements at h
  rw [List.foldlM_append] at h
  cases hg : front.foldlM (Grouping.next stem) {} with
  | error e =>
    rw [hg] at h
    cases h
  | ok g =>
    rw [hg] at h
    obtain ⟨quoted, column, rfl⟩ := foldlM_unopened stem hfront hg
    rw [List.append_nil] at h
    cases rest with
    | nil =>
      refine ⟨[], [], ?_, by simp, .inl rfl⟩
      simpa [bind, Except.bind, pure, Except.pure] using h.symm
    | cons c rest =>
      simp only [bind, Except.bind] at h
      rw [List.foldlM_cons] at h
      by_cases hopen : quoted = false ∧ c = '('
      · obtain ⟨rfl, rfl⟩ := hopen
        have halike : Grouping.Alike stem (' ' :: front.reverse) (' ' :: front.reverse)
            { around := [(Grouping.temporary stem 0).reverse ++ ' ' :: front.reverse]
              current := '=' :: (Grouping.temporary stem 0).reverse
              opened := 1, column := column + '('.utf8Size } _ :=
          ⟨rfl, rfl, rfl, by simp, ['=' :: (Grouping.temporary stem 0).reverse],
            (Grouping.temporary stem 0).reverse, rfl, rfl,
            List.forall_mem_singleton.2 ⟨0, [], by simp⟩⟩
        obtain ⟨groups, u, hss, hgroups⟩ := statements_of_alike halike h
        exact ⟨groups, ' ' :: u, hss, hgroups, .inr rfl⟩
      · rcases next_unopened stem front.reverse column hopen with ⟨quoted', hnext⟩ | ⟨e, hnext⟩
        · rw [hnext] at h
          have halike : Grouping.Alike stem (c :: front.reverse) (c :: front.reverse)
              { current := c :: front.reverse, quoted := quoted'
                column := column + c.utf8Size } _ :=
            ⟨rfl, rfl, rfl, by simp, [], [], rfl, rfl, by simp⟩
          obtain ⟨groups, u, hss, hgroups⟩ := statements_of_alike halike h
          exact ⟨groups, c :: u, hss, hgroups, .inl rfl⟩
        · rw [hnext] at h
          cases h

/-- A line without an opening parenthesis is one statement. -/
theorem statements_unopened (stem : String) {text : List Char} (htext : '(' ∉ text)
    {ss : List (List Char)} (h : statements stem text = .ok ss) : ss = [text] := by
  unfold statements at h
  cases hg : text.foldlM (Grouping.next stem) {} with
  | error e =>
    rw [hg] at h
    cases h
  | ok g =>
    rw [hg] at h
    have hopen : ∀ c ∈ text, c ≠ '(' := by
      rintro c hc rfl
      exact htext hc
    obtain ⟨quoted, column, rfl⟩ := foldlM_unopened stem hopen hg
    simpa [bind, Except.bind, pure, Except.pure] using h.symm

end Source

end ScriptMachine
