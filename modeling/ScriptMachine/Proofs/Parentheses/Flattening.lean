/-
  ScriptMachine.Proofs.Parentheses.Flattening

  Lines are flattened faithfully.  The groups of a nest are numbered in the order in which
  they open, and each gives a statement of its own, in the order in which they close; in the
  text around it a group leaves the name of its temporary (`Nest.flatten`).  Taking a line
  apart succeeds exactly when the line is balanced, gives the statements of its nest, and
  fails at the first closing parenthesis that matches none, or else at the end of the line
  (`statements_flatten`).
-/

import ScriptMachine.Proofs.Parentheses.Nests
import ScriptMachine.Source.Grouping

namespace ScriptMachine.Source

open Grouping (temporary)

/-! ## Statements -/

/-- A part of a statement: a character of the line, or the name that stands for a group. -/
inductive Piece where
  | char (c : Char)
  | name (n : Nat)
  deriving DecidableEq

/-- A statement of a line: of the group with a number, or what is left of the line. -/
structure Statement where
  target : Option Nat
  own : List Piece
  deriving DecidableEq

/-- Text of a part; the name of a temporary has a blank in front of it. -/
def Piece.text (stem : String) : Piece → List Char
  | char c => [c]
  | name n => ' ' :: temporary stem n

/-- The group that a part stands for. -/
def Piece.name? : Piece → Option Nat
  | char _ => none
  | name n => some n

namespace Statement

/-- Text of a statement; that of a group assigns to the temporary. -/
def text (stem : String) (s : Statement) : List Char :=
  match s.target with
  | some n => temporary stem n ++ '=' :: s.own.flatMap (Piece.text stem)
  | none => s.own.flatMap (Piece.text stem)

/-- The groups whose names were inserted into the statement. -/
def names (s : Statement) : List Nat :=
  s.own.filterMap Piece.name?

/-- The text of a statement with the groups put back in the places of their names. -/
def putBack (known : Nat → List Char) : List Piece → List Char
  | [] => []
  | .char c :: ps => c :: putBack known ps
  | .name n :: ps => '(' :: (known n ++ ')' :: putBack known ps)

/-- The line that statements were made of: the groups are put back one after the other. -/
def rebuild (known : Nat → List Char) : List Statement → List Char
  | [] => []
  | ⟨some n, own⟩ :: ss =>
    rebuild (fun m => if m = n then putBack known own else known m) ss
  | ⟨none, own⟩ :: _ => putBack known own

end Statement

namespace Nest

/-- What is left of a nest whose first group has the number `n`. -/
def own (n : Nat) : Nest → List Piece
  | nil => []
  | char c rest => .char c :: rest.own n
  | group inner rest => .name n :: rest.own (n + 1 + inner.groups)

/-- The statements of the groups of a nest whose first group has the number `n`, in the
order in which the groups close. -/
def flat (n : Nat) : Nest → List Statement
  | nil => []
  | char _ rest => rest.flat n
  | group inner rest =>
    inner.flat (n + 1) ++ ⟨some n, inner.own (n + 1)⟩ :: rest.flat (n + 1 + inner.groups)

/-- The statements of a line. -/
def flatten (t : Nest) : List Statement :=
  t.flat 0 ++ [⟨none, t.own 0⟩]

theorem length_flat (t : Nest) (n : Nat) : (t.flat n).length = t.groups := by
  induction t generalizing n with
  | nil => rfl
  | char _ rest ih => exact ih n
  | group inner rest ihinner ihrest =>
    simp only [flat, List.length_append, List.length_cons, ihinner, ihrest, groups]
    omega

end Nest

/-! ## Taking lines apart -/

namespace Grouping

section
variable {stem : String} {g g' : Grouping} {c : Char}

/-- The state of a line behind a nest: its statements are finished, and what is left of it
is part of the text around them. -/
def past (stem : String) (g : Grouping) (t : Nest) (quoted : Bool) : Grouping where
  finished := ((t.flat g.opened).map (Statement.text stem)).reverse ++ g.finished
  around := g.around
  current := ((t.own g.opened).flatMap (Piece.text stem)).reverse ++ g.current
  quoted := quoted
  opened := g.opened + t.groups
  column := g.column + Text.utf8Length t.text

/-- The state of a line behind an opening parenthesis. -/
def enter (stem : String) (g : Grouping) : Grouping :=
  { g with
    opened := g.opened + 1
    around := ((temporary stem g.opened).reverse ++ ' ' :: g.current) :: g.around
    current := '=' :: (temporary stem g.opened).reverse
    column := g.column + 1 }

theorem next_char (hc : g.quoted = false → c ≠ '(' ∧ c ≠ ')') :
    g.next stem c = .ok { g with
      quoted := toggle g.quoted c
      current := c :: g.current
      column := g.column + c.utf8Size } := by
  unfold next toggle
  dsimp only
  split
  · rename_i hquoted
    by_cases hquote : c = '"' <;> simp [hquoted, hquote]
  · rename_i hquoted
    obtain ⟨hopen, hclose⟩ := hc (by simpa using hquoted)
    by_cases hquote : c = '"' <;> simp [hquoted, hquote, hopen, hclose]

theorem next_open (hg : g.quoted = false) :
    g.next stem '(' = .ok (g.enter stem) := by
  simp [next, enter, hg, show '('.utf8Size = 1 from rfl]

theorem next_close {outer : List Char} {around : List (List Char)} (hg : g.quoted = false)
    (haround : g.around = outer :: around) :
    g.next stem ')' = .ok { g with
      finished := g.current.reverse :: g.finished
      around
      current := outer
      column := g.column + 1 } := by
  simp [next, hg, haround, show ')'.utf8Size = 1 from rfl]

theorem next_unmatched (stem : String) (hg : g.quoted = false) (haround : g.around = []) :
    g.next stem ')' =
      .error ((Error.of .unbalancedParentheses).inColumns g.column (g.column + 1)) := by
  simp [next, hg, haround, show ')'.utf8Size = 1 from rfl]

theorem foldlM_cons_of_ok (h : g.next stem c = .ok g') (cs : List Char) :
    (c :: cs).foldlM (next stem) g = cs.foldlM (next stem) g' := by
  rw [List.foldlM_cons, h]
  rfl

theorem foldlM_append_of_ok {as : List Char} (h : as.foldlM (next stem) g = .ok g')
    (bs : List Char) : (as ++ bs).foldlM (next stem) g = bs.foldlM (next stem) g' := by
  rw [List.foldlM_append, h]
  rfl

end

end Grouping

section
variable {stem : String} {t : Nest} {q q' : Bool}

theorem Nest.Stands.foldlM (h : t.Stands q q') (stem : String) (g : Grouping)
    (hg : g.quoted = q) :
    t.text.foldlM (Grouping.next stem) g = .ok (g.past stem t q') := by
  induction h generalizing g with
  | nil q =>
    subst hg
    rfl
  | @char c rest q q' hc _ ih =>
    subst hg
    rw [text, Grouping.foldlM_cons_of_ok (Grouping.next_char hc), ih _ rfl]
    simp [Grouping.past, flat, own, groups, text, Piece.text, Nat.add_assoc]
  | @group inner rest q _ _ ihinner ihrest =>
    rw [text, Grouping.foldlM_cons_of_ok (Grouping.next_open hg),
      Grouping.foldlM_append_of_ok (ihinner (g.enter stem) hg),
      Grouping.foldlM_cons_of_ok (Grouping.next_close rfl rfl), ihrest _ rfl]
    have hgroups : g.opened + 1 + inner.groups = g.opened + (1 + inner.groups) :=
      Nat.add_assoc _ _ _
    simp [Grouping.past, Grouping.enter, flat, own, groups, text, Piece.text, Statement.text, hgroups,
      show '('.utf8Size = 1 from rfl, show ')'.utf8Size = 1 from rfl]
    omega

/-- A group that stays open is still there at the end. -/
theorem Unclosed.foldlM {cs : List Char} (h : Unclosed q cs) (stem : String) (g : Grouping)
    (hg : g.quoted = q) :
    ∃ g', cs.foldlM (Grouping.next stem) g = .ok g' ∧ g'.around ≠ [] ∧
      g'.column = g.column + Text.utf8Length cs := by
  have hsize : '('.utf8Size = 1 := rfl
  induction h generalizing g with
  | @last t u q q' ht hu =>
    refine ⟨((g.past stem t false).enter stem).past stem u q', ?_, ?_, ?_⟩
    · rw [Grouping.foldlM_append_of_ok (ht.foldlM stem g hg),
        Grouping.foldlM_cons_of_ok (Grouping.next_open rfl)]
      exact hu.foldlM stem _ rfl
    · simp [Grouping.past, Grouping.enter]
    · simp [Grouping.past, Grouping.enter, hsize, Nat.add_assoc]
  | @inside t q cs ht _ ih =>
    obtain ⟨g', hg', haround, hcolumn⟩ := ih ((g.past stem t false).enter stem) rfl
    refine ⟨g', ?_, haround, ?_⟩
    · rw [Grouping.foldlM_append_of_ok (ht.foldlM stem g hg),
        Grouping.foldlM_cons_of_ok (Grouping.next_open rfl)]
      exact hg'
    · simp [hcolumn, Grouping.past, Grouping.enter, hsize, Nat.add_assoc]

theorem statements_nest (ht : t.Stands false q) :
    statements stem t.text = .ok (t.flatten.map (Statement.text stem)) := by
  unfold statements
  rw [ht.foldlM stem {} rfl]
  simp [Grouping.past, Nest.flatten, Statement.text, bind, Except.bind, pure, Except.pure]

theorem statements_unmatched (ht : t.Stands false false) (rest : List Char) :
    statements stem (t.text ++ ')' :: rest) =
      .error ((Error.of .unbalancedParentheses).inColumns (Text.utf8Length t.text)
        (Text.utf8Length t.text + 1)) := by
  unfold statements
  rw [Grouping.foldlM_append_of_ok (ht.foldlM stem {} rfl), List.foldlM_cons,
    Grouping.next_unmatched stem rfl rfl]
  simp [Grouping.past, bind, Except.bind]

theorem statements_unclosed {line : List Char} (h : Unclosed false line) :
    statements stem line =
      .error ((Error.of .missingParenthesis).inColumns (Text.utf8Length line)
        (Text.utf8Length line)) := by
  obtain ⟨g, hg, haround, hcolumn⟩ := h.foldlM stem {} rfl
  unfold statements
  rw [hg]
  simp only [bind, Except.bind, List.isEmpty_iff, haround, if_false, hcolumn, Nat.zero_add]
  rfl

end

/-! ## The statement of each group -/

/-- What reading some text adds: as many groups as it opens, and a finished statement for
each that it closes. -/
structure Grouping.Adds (g : Grouping) (cs : List Char) (g' : Grouping) : Prop where
  quoted : g'.quoted = quotedAfter g.quoted cs
  opened : g'.opened = g.opened + (outside g.quoted cs).count '('
  finished : ∃ more, g'.finished = more ++ g.finished ∧
    more.length = (outside g.quoted cs).count ')'

namespace Grouping

section
variable {stem : String} {g g' g'' : Grouping} {c : Char} {cs ds : List Char}

theorem Adds.append (h : Adds g cs g') (k : Adds g' ds g'') : Adds g (cs ++ ds) g'' := by
  obtain ⟨hquoted, hopened, more, hfinished, hlength⟩ := h
  obtain ⟨hquoted', hopened', more', hfinished', hlength'⟩ := k
  rw [hquoted] at hquoted' hopened' hlength'
  refine ⟨?_, ?_, more' ++ more, ?_, ?_⟩
  · rw [hquoted', quotedAfter_append]
  · rw [hopened', hopened, outside_append, List.count_append, Nat.add_assoc]
  · rw [hfinished', hfinished, List.append_assoc]
  · rw [List.length_append, hlength', hlength, outside_append, List.count_append, Nat.add_comm]

theorem adds_of_next (h : g.next stem c = .ok g') : Adds g [c] g' := by
  by_cases hplain : g.quoted = false → c ≠ '(' ∧ c ≠ ')'
  · rw [next_char hplain] at h
    obtain rfl := Except.ok.inj h
    refine ⟨rfl, ?_, [], rfl, ?_⟩
    · rw [count_outside_cons fun hq => (hplain hq).1]
      rfl
    · rw [count_outside_cons fun hq => (hplain hq).2]
      rfl
  obtain ⟨hg, hparen⟩ : g.quoted = false ∧ (c = '(' ∨ c = ')') := by
    simpa [Decidable.or_iff_not_imp_left] using hplain
  rcases hparen with rfl | rfl
  · rw [next_open hg] at h
    obtain rfl := Except.ok.inj h
    refine ⟨rfl, ?_, [], rfl, ?_⟩
    · rw [hg]
      rfl
    · rw [hg]
      rfl
  · cases haround : g.around with
    | nil =>
      rw [next_unmatched stem hg haround] at h
      cases h
    | cons outer around =>
      rw [next_close hg haround] at h
      obtain rfl := Except.ok.inj h
      refine ⟨rfl, ?_, [g.current.reverse], rfl, ?_⟩
      · rw [hg]
        rfl
      · rw [hg]
        rfl

theorem adds_of_foldlM (h : cs.foldlM (next stem) g = .ok g') : Adds g cs g' := by
  induction cs generalizing g with
  | nil =>
    obtain rfl := Except.ok.inj h
    exact ⟨rfl, rfl, [], rfl, rfl⟩
  | cons c cs ih =>
    rw [List.foldlM_cons] at h
    cases hnext : g.next stem c with
    | error e =>
      rw [hnext] at h
      cases h
    | ok k =>
      rw [hnext] at h
      exact (adds_of_next hnext).append (ih h)

end

end Grouping

theorem getElem?_reverse_append (as : List (List Char)) (x : List Char) (bs : List (List Char)) :
    (as ++ x :: bs).reverse[bs.length]? = some x := by
  rw [List.reverse_append, List.reverse_cons, List.append_assoc, List.singleton_append,
    ← List.length_reverse, List.getElem?_append_right (Nat.le_refl _), Nat.sub_self]
  rfl

/-- The group that opens behind `p` is closed, and gives a statement of its own: its number
is the number of groups opened before it, and its place the number of groups closed before
it. -/
theorem getElem?_statements {stem : String} {p rest : List Char} {ss : List (List Char)}
    (hp : quotedAfter false p = false) (h : statements stem (p ++ '(' :: rest) = .ok ss) :
    ∃ (t : Nest) (s : List Char), rest = t.text ++ ')' :: s ∧ t.Stands false false ∧
      ss[closes (p ++ '(' :: t.text)]? =
        some (Statement.text stem ⟨some (opens p), t.own (opens p + 1)⟩) := by
  unfold statements at h
  rw [List.foldlM_append] at h
  cases hfront : p.foldlM (Grouping.next stem) {} with
  | error e =>
    rw [hfront] at h
    cases h
  | ok g =>
    obtain ⟨hquoted, hopened, before, hfinished, hlength⟩ := Grouping.adds_of_foldlM hfront
    have hg : g.quoted = false := hquoted.trans hp
    rw [hfront] at h
    simp only [bind, Except.bind] at h
    rw [Grouping.foldlM_cons_of_ok (Grouping.next_open hg)] at h
    rcases nest_or_unmatched false rest with ⟨t, q, ht, rfl⟩ | ⟨t, s, ht, rfl⟩ | hunclosed
    · rw [ht.foldlM stem (g.enter stem) hg] at h
      cases h
    · refine ⟨t, s, rfl, ht, ?_⟩
      have hcurrent : ((g.enter stem).past stem t false).around =
          ((temporary stem g.opened).reverse ++ ' ' :: g.current) :: g.around := rfl
      rw [Grouping.foldlM_append_of_ok (ht.foldlM stem (g.enter stem) hg),
        Grouping.foldlM_cons_of_ok (Grouping.next_close rfl hcurrent)] at h
      generalize hback : s.foldlM (Grouping.next stem) _ = r at h
      cases r with
      | error e => cases h
      | ok k =>
        obtain ⟨_, _, more, hmore, _⟩ := Grouping.adds_of_foldlM hback
        dsimp only at h
        split at h
        · obtain rfl := Except.ok.inj h
          -- the statements finished before that of the group, its inner ones included
          let old := ((t.flat (g.opened + 1)).map (Statement.text stem)).reverse ++ g.finished
          have hplace : old.length = closes (p ++ '(' :: t.text) := by
            simp only [old, closes, hfinished, List.length_append, List.length_reverse,
              List.length_map, t.length_flat, hlength, outside_append, hp, outside_open,
              List.count_append, List.count_cons, ht.count, List.length_nil]
            simp [Nat.add_comm]
          have htext : ((g.enter stem).past stem t false).current.reverse =
              Statement.text stem ⟨some (opens p), t.own (opens p + 1)⟩ := by
            have hn : g.opened = opens p := hopened.trans (Nat.zero_add _)
            simp [Grouping.past, Grouping.enter, Statement.text, hn]
          rw [hmore, ← hplace, ← htext]
          exact getElem?_reverse_append (k.current.reverse :: more) _ old
        · cases h
    · obtain ⟨k, hk, haround, _⟩ := hunclosed.foldlM stem (g.enter stem) hg
      rw [hk] at h
      simp only [List.isEmpty_iff, haround, if_false] at h
      cases h

/-! ## Names and groups -/

namespace Nest

/-- The groups of a nest have their numbers in a row, and each has one statement. -/
theorem count_targets (t : Nest) (n i : Nat) :
    ((t.flat n).filterMap Statement.target).count i =
      if n ≤ i ∧ i < n + t.groups then 1 else 0 := by
  induction t generalizing n with
  | nil => exact (if_neg (show ¬ (n ≤ i ∧ i < n + 0) by omega)).symm
  | char _ rest ih => exact ih n
  | group inner rest ihinner ihrest =>
    simp only [flat, groups, List.filterMap_append, List.filterMap_cons, List.count_append,
      List.count_cons, ihinner, ihrest, beq_iff_eq]
    grind

/-- For each group one name was inserted, into a statement of the nest or into what is left
of it. -/
theorem count_names (t : Nest) (n i : Nat) :
    ((t.flat n).flatMap Statement.names).count i + ((t.own n).filterMap Piece.name?).count i =
      if n ≤ i ∧ i < n + t.groups then 1 else 0 := by
  induction t generalizing n with
  | nil => exact (if_neg (show ¬ (n ≤ i ∧ i < n + 0) by omega)).symm
  | char _ rest ih => exact ih n
  | group inner rest ihinner ihrest =>
    have hinner := ihinner (n + 1)
    have hrest := ihrest (n + 1 + inner.groups)
    simp only [flat, own, groups, List.flatMap_append, List.flatMap_cons, List.count_append,
      List.filterMap_cons, Piece.name?, List.count_cons, beq_iff_eq]
    simp only [show (⟨some n, inner.own (n + 1)⟩ : Statement).names =
      (inner.own (n + 1)).filterMap Piece.name? from rfl]
    grind

theorem mem_target {t : Nest} {n i : Nat} {s : Statement} (hs : s ∈ t.flat n)
    (hi : s.target = some i) : n ≤ i ∧ i < n + t.groups := by
  have hmem : i ∈ (t.flat n).filterMap Statement.target := List.mem_filterMap.2 ⟨s, hs, hi⟩
  have hpos := List.count_pos_iff.2 hmem
  rw [count_targets] at hpos
  split at hpos
  · assumption
  · exact absurd hpos (Nat.lt_irrefl 0)

theorem mem_names {t : Nest} {n i : Nat} {s : Statement} (hs : s ∈ t.flat n)
    (hi : i ∈ s.names) : n ≤ i ∧ i < n + t.groups := by
  have hmem : i ∈ (t.flat n).flatMap Statement.names := List.mem_flatMap.2 ⟨s, hs, hi⟩
  have hpos := List.count_pos_iff.2 hmem
  have hcount := t.count_names n i
  split at hcount
  · assumption
  · omega

theorem mem_own {t : Nest} {n i : Nat} (hi : i ∈ (t.own n).filterMap Piece.name?) :
    n ≤ i ∧ i < n + t.groups := by
  have hpos := List.count_pos_iff.2 hi
  have hcount := t.count_names n i
  split at hcount
  · assumption
  · omega

/-- No statement mentions a group whose statement comes behind it, nor its own. -/
theorem pairwise_flat (t : Nest) (n : Nat) :
    (t.flat n).Pairwise (fun s s' => ∀ i ∈ s.names, s'.target ≠ some i) ∧
      ∀ s ∈ t.flat n, ∀ i ∈ s.names, s.target ≠ some i := by
  induction t generalizing n with
  | nil => simp [flat]
  | char _ rest ih => exact ih n
  | group inner rest ihinner ihrest =>
    obtain ⟨hinner, hself⟩ := ihinner (n + 1)
    obtain ⟨hrest, hself'⟩ := ihrest (n + 1 + inner.groups)
    have hgroup : ∀ i ∈ (⟨some n, inner.own (n + 1)⟩ : Statement).names,
        n + 1 ≤ i ∧ i < n + 1 + inner.groups := fun i => mem_own
    have hbehind : ∀ s ∈ rest.flat (n + 1 + inner.groups), ∀ i, i < n + 1 + inner.groups →
        s.target ≠ some i := by
      intro s hs i hi htarget
      have hle := (mem_target hs htarget).1
      omega
    simp only [flat, List.pairwise_append, List.pairwise_cons, List.forall_mem_append,
      List.forall_mem_cons]
    refine ⟨⟨hinner, ⟨fun s hs i hi => hbehind s hs i (hgroup i hi).2, hrest⟩,
      fun s hs => ⟨fun i hi htarget => ?_, fun s' hs' i hi => ?_⟩⟩, hself,
      fun i hi htarget => ?_, hself'⟩
    · have hle := (mem_names hs hi).1
      have heq : n = i := Option.some.inj htarget
      omega
    · exact hbehind s' hs' i (mem_names hs hi).2
    · have hle := (hgroup i hi).1
      have heq : n = i := Option.some.inj htarget
      omega

/-- The statement of a group comes before the only statement that mentions it, which does so
once. -/
theorem flatten_mentions {t : Nest} {i : Nat} (hi : i < t.groups) :
    ∃ before s between s' after, t.flatten = before ++ s :: (between ++ s' :: after) ∧
      s.target = some i ∧ s'.names.count i = 1 ∧
      ∀ u ∈ before ++ s :: (between ++ after), i ∉ u.names := by
  have hpos : 0 < ((t.flat 0).filterMap Statement.target).count i := by
    rw [count_targets, if_pos ⟨Nat.zero_le i, by omega⟩]
    exact Nat.one_pos
  obtain ⟨s, hs, htarget⟩ := List.mem_filterMap.1 (List.count_pos_iff.1 hpos)
  obtain ⟨before, rest, hsplit⟩ := List.append_of_mem hs
  obtain ⟨hpairs, hself⟩ := t.pairwise_flat 0
  have hcount := t.count_names 0 i
  rw [if_pos ⟨Nat.zero_le i, by omega⟩] at hcount
  rw [hsplit, List.pairwise_append] at hpairs
  rw [hsplit] at hself hcount
  let last : Statement := ⟨none, t.own 0⟩
  -- in front of the statement of the group, and in itself, the group is not mentioned
  have hbefore : ∀ u ∈ before, i ∉ u.names := fun u hu hmem =>
    hpairs.2.2 u hu s List.mem_cons_self i hmem htarget
  have hown : i ∉ s.names := fun hmem => hself s (by simp) i hmem htarget
  have hnone : (before.flatMap Statement.names).count i = 0 := by
    rw [List.count_eq_zero, List.mem_flatMap]
    rintro ⟨u, hu, hmem⟩
    exact hbefore u hu hmem
  have hmentions : ((rest ++ [last]).flatMap Statement.names).count i = 1 := by
    have hzero := List.count_eq_zero.2 hown
    simp only [List.flatMap_append, List.flatMap_cons, List.count_append, hnone, hzero] at hcount
    simpa [Statement.names, last] using hcount
  have hmem : i ∈ (rest ++ [last]).flatMap Statement.names :=
    List.count_pos_iff.1 (by omega)
  obtain ⟨s', hs', hi'⟩ := List.mem_flatMap.1 hmem
  obtain ⟨between, after, hrest⟩ := List.append_of_mem hs'
  have hone := List.count_pos_iff.2 hi'
  rw [hrest] at hmentions
  simp only [List.flatMap_append, List.flatMap_cons, List.count_append] at hmentions
  refine ⟨before, s, between, s', after, ?_, htarget, by omega, ?_⟩
  · rw [flatten, hsplit, List.append_assoc, List.cons_append, hrest]
  · have hothers : ∀ us : List Statement, (us.flatMap Statement.names).count i = 0 →
        ∀ u ∈ us, i ∉ u.names := fun us hus u hu hmem =>
      List.count_eq_zero.1 hus (List.mem_flatMap.2 ⟨u, hu, hmem⟩)
    simp only [List.forall_mem_append, List.forall_mem_cons]
    exact ⟨hbefore, hown, hothers between (by omega), hothers after (by omega)⟩

end Nest

/-! ## Putting groups back -/

/-- Behind the statements of a nest its groups are known, and putting them back gives the
text of the nest; what was known of other groups stays. -/
theorem Nest.rebuild_flat (t : Nest) (n : Nat) (known : Nat → List Char) :
    ∃ known', (∀ ss, Statement.rebuild known (t.flat n ++ ss) = Statement.rebuild known' ss) ∧
      (∀ i, ¬ (n ≤ i ∧ i < n + t.groups) → known' i = known i) ∧
      Statement.putBack known' (t.own n) = t.text := by
  induction t generalizing n known with
  | nil => exact ⟨known, fun _ => rfl, fun _ _ => rfl, rfl⟩
  | char c rest ih =>
    obtain ⟨known', hrebuild, hother, htext⟩ := ih n known
    exact ⟨known', hrebuild, hother, congrArg _ htext⟩
  | group inner rest ihinner ihrest =>
    obtain ⟨known₁, hrebuild₁, hother₁, htext₁⟩ := ihinner (n + 1) known
    obtain ⟨known₂, hrebuild₂, hother₂, htext₂⟩ := ihrest (n + 1 + inner.groups)
      fun m => if m = n then inner.text else known₁ m
    refine ⟨known₂, fun ss => ?_, fun i hi => ?_, ?_⟩
    · rw [flat, List.append_assoc, hrebuild₁, List.cons_append, Statement.rebuild, htext₁]
      exact hrebuild₂ ss
    · rw [groups] at hi
      rw [hother₂ i (by omega), if_neg (by omega)]
      exact hother₁ i (by omega)
    · rw [own, Statement.putBack, htext₂, hother₂ n (by omega), if_pos rfl]
      rfl

theorem Nest.rebuild_flatten (t : Nest) : Statement.rebuild (fun _ => []) t.flatten = t.text := by
  obtain ⟨known, hrebuild, _, htext⟩ := t.rebuild_flat 0 fun _ => []
  rw [flatten, hrebuild]
  exact htext

/-! ## Lines -/

/-- Lines are taken apart exactly when they are balanced, and faithfully.  The first closing
parenthesis that matches none is a syntax error at its column, and where one is missing it
is a syntax error at the end of the line; every other line is balanced.  A balanced line has
one nest.  Its statements are those of the nest: one more than the line has groups; put
back in the places of their names, the groups give the line again; the statement of a group
comes before the only one that mentions it; and each opening parenthesis outside of strings,
with `p` in front of it, starts a group with the number `opens p`, whose statement assigns
its own text to its temporary and has as many statements before it as groups were closed. -/
theorem statements_flatten (stem : String) (line : List Char) :
    ((∃ ss, statements stem line = .ok ss) ↔ Balanced line) ∧
    (∀ p rest, line = p ++ ')' :: rest → Balanced p → quotedAfter false p = false →
      ∃ e, statements stem line = .error e ∧ e.kind = .syntaxError ∧
        e.columns = ⟨Text.utf8Length p, Text.utf8Length p + 1⟩) ∧
    (Matched false line → closes line < opens line →
      ∃ e, statements stem line = .error e ∧ e.kind = .syntaxError ∧
        e.columns = ⟨Text.utf8Length line, Text.utf8Length line⟩) ∧
    (Balanced line ∨
      (∃ p rest, line = p ++ ')' :: rest ∧ Balanced p ∧ quotedAfter false p = false) ∨
      Matched false line ∧ closes line < opens line) ∧
    ∀ ss, statements stem line = .ok ss → ∃ t : Nest,
      (∀ u : Nest, u = t ↔ u.text = line ∧ ∃ q, u.Stands false q) ∧
      ss = t.flatten.map (Statement.text stem) ∧
      ss.length = opens line + 1 ∧
      Statement.rebuild (fun _ => []) t.flatten = line ∧
      (∀ i < opens line, ∃ before s between s' after,
        t.flatten = before ++ s :: (between ++ s' :: after) ∧ s.target = some i ∧
        s'.names.count i = 1 ∧ ∀ u ∈ before ++ s :: (between ++ after), i ∉ u.names) ∧
      ∀ p rest, line = p ++ '(' :: rest → quotedAfter false p = false →
        ∃ (inner : Nest) (s : List Char), rest = inner.text ++ ')' :: s ∧
          inner.Stands false false ∧ ss[closes (p ++ '(' :: inner.text)]? =
            some (Statement.text stem ⟨some (opens p), inner.own (opens p + 1)⟩) := by
  have hunmatched : ∀ p rest, line = p ++ ')' :: rest → Balanced p →
      quotedAfter false p = false → ∃ e, statements stem line = .error e ∧
        e.kind = .syntaxError ∧ e.columns = ⟨Text.utf8Length p, Text.utf8Length p + 1⟩ := by
    rintro p rest rfl hp hquoted
    obtain ⟨t, q, ht, rfl⟩ := balanced_iff_exists_nest.1 hp
    obtain rfl : q = false := ht.quotedAfter.symm.trans hquoted
    exact ⟨_, statements_unmatched ht rest, rfl, rfl⟩
  have hcases := nest_or_unmatched false line
  refine ⟨⟨fun ⟨ss, hss⟩ => ?_, fun h => ?_⟩, hunmatched, fun hmatched hlt => ?_, ?_,
    fun ss hss => ?_⟩
  · rcases hcases with ⟨t, q, ht, rfl⟩ | ⟨t, rest, ht, rfl⟩ | h
    · exact ht.balanced
    · rw [statements_unmatched ht rest] at hss
      cases hss
    · rw [statements_unclosed h] at hss
      cases hss
  · obtain ⟨t, q, ht, rfl⟩ := balanced_iff_exists_nest.1 h
    exact ⟨_, statements_nest ht⟩
  · rcases hcases with ⟨t, q, ht, rfl⟩ | ⟨t, rest, ht, rfl⟩ | h
    · have hclosed := ht.balanced.closed
      omega
    · exact absurd hmatched (not_matched_of_unmatched ht rest)
    · exact ⟨_, statements_unclosed h, rfl, rfl⟩
  · rcases hcases with ⟨t, q, ht, rfl⟩ | ⟨t, rest, ht, rfl⟩ | h
    · exact .inl ht.balanced
    · exact .inr (.inl ⟨t.text, rest, rfl, ht.balanced, ht.quotedAfter⟩)
    · exact .inr (.inr h.count)
  · rcases hcases with ⟨t, q, ht, rfl⟩ | ⟨t, rest, ht, rfl⟩ | h
    · have hss' : ss = t.flatten.map (Statement.text stem) :=
        Except.ok.inj (hss.symm.trans (statements_nest ht))
      have hopens : opens t.text = t.groups := ht.count.1
      refine ⟨t, fun u => ⟨?_, ?_⟩, hss', ?_, t.rebuild_flatten, ?_, ?_⟩
      · rintro rfl
        exact ⟨rfl, q, ht⟩
      · rintro ⟨htext, q', hu⟩
        exact (hu.unique ht (.inl rfl) (.inl rfl) (by rw [htext])).1
      · simp [hss', Nest.flatten, t.length_flat, hopens]
      · intro i hi
        exact Nest.flatten_mentions (hopens ▸ hi)
      · intro p rest hline hp
        rw [hline] at hss
        exact getElem?_statements hp hss
    · rw [statements_unmatched ht rest] at hss
      cases hss
    · rw [statements_unclosed h] at hss
      cases hss

end ScriptMachine.Source
