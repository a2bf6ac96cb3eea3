/-
  ScriptMachine.Proofs.Spacing.Drafts

  What is written for an expression depends on the text that is left of its line, and
  not on the column at which that starts.  From two scanners with the same text the
  drafts of an expression are alike (`Context.alike_expression`): they write the same
  items, and both fail or both succeed with the same text left.  Only the columns in
  the errors differ.
-/

import ScriptMachine.Compiler.Expression

namespace ScriptMachine

/-! ## Scanners with the same text left -/

namespace Scanner

/-- Two readings that found the same characters and left the same text, or nothing. -/
inductive Same : Option (List Char × Scanner) → Option (List Char × Scanner) → Prop where
  | none : Same none none
  | some {w : List Char} {u v : Scanner} (h : u.rest = v.rest) : Same (some (w, u)) (some (w, v))

variable {s t : Scanner}

theorem Same.cases {o o' : Option (List Char × Scanner)} (h : Same o o') :
    o = Option.none ∧ o' = Option.none ∨
      ∃ w u v, o = Option.some (w, u) ∧ o' = Option.some (w, v) ∧ u.rest = v.rest := by
  cases h with
  | none => exact .inl ⟨rfl, rfl⟩
  | some h => exact .inr ⟨_, _, _, rfl, rfl, h⟩

theorem rest_skip (set : List Char) (s : Scanner) :
    (s.skip set).rest = s.rest.dropWhile set.contains :=
  rfl

theorem rest_skip_congr (set : List Char) (h : s.rest = t.rest) :
    (s.skip set).rest = (t.skip set).rest := by
  rw [rest_skip, rest_skip, h]

theorem same_word? (stop : List Char) (h : s.rest = t.rest) :
    Same (s.word? stop) (t.word? stop) := by
  unfold word?
  rw [h]
  split
  · exact .none
  · simp only [run, h]
    exact .some rfl

theorem same_operator? (set : List Char) (h : s.rest = t.rest) :
    Same (s.operator? set) (t.operator? set) := by
  have hs : s.operator? set = if (s.rest.takeWhile set.contains).isEmpty then none else
    some (s.rest.takeWhile set.contains, (s.run set.contains).2) := rfl
  have ht : t.operator? set = if (t.rest.takeWhile set.contains).isEmpty then none else
    some (t.rest.takeWhile set.contains, (t.run set.contains).2) := rfl
  rw [hs, ht, h]
  split
  · exact .none
  · exact .some (rest_skip_congr set h)

theorem same_delimited? (d : Char) (h : s.rest = t.rest) :
    Same (s.delimited? d) (t.delimited? d) := by
  unfold delimited?
  rw [h]
  cases t.rest with
  | nil => exact .none
  | cons c rest =>
    dsimp only
    by_cases hc : c = d
    · simp only [hc, if_true, run]
      cases rest.dropWhile (· != d) with
      | nil => exact .none
      | cons _ _ => exact .some rfl
    · simp only [hc, if_false]
      exact .none

/-- Skipping a larger set skips what a smaller one does. -/
theorem rest_skip_skip {small large : List Char} (h : small ⊆ large) (s : Scanner) :
    ((s.skip small).skip large).rest = (s.skip large).rest := by
  rw [rest_skip, rest_skip, rest_skip]
  induction s.rest with
  | nil => rfl
  | cons c cs ih =>
    by_cases hc : small.contains c = true
    · have hc' : large.contains c = true := by
        rw [List.contains_iff_mem] at hc ⊢
        exact h hc
      rw [List.dropWhile_cons_of_pos hc, List.dropWhile_cons_of_pos hc', ih]
    · rw [List.dropWhile_cons_of_neg hc]

/-- Both found something or nothing, with the same text left. -/
inductive Optional.Alike : s.Optional → t.Optional → Prop where
  | found {u v : Scanner} {hu : u.rest.length < s.rest.length} {hv : v.rest.length < t.rest.length}
    (h : u.rest = v.rest) : Alike (.found u hu) (.found v hv)
  | absent {u v : Scanner} {hu : u.rest.length ≤ s.rest.length}
    {hv : v.rest.length ≤ t.rest.length} (h : u.rest = v.rest) : Alike (.absent u hu) (.absent v hv)

theorem Optional.Alike.from {s' t' : Scanner} {r : s.Optional} {q : t.Optional} (h : r.Alike q)
    (hs : s.rest.length ≤ s'.rest.length) (ht : t.rest.length ≤ t'.rest.length) :
    (r.from hs).Alike (q.from ht) := by
  cases h with
  | found h => exact .found h
  | absent h => exact .absent h

/-- The same text is left. -/
def From.Alike (u : s.From) (v : t.From) : Prop :=
  u.1.rest = v.1.rest

end Scanner

/-! ## Drafts -/

namespace Draft

variable {α β γ δ : Type}

/-- Both drafts write the same items, and both fail, or both succeed with related
results. -/
inductive Alike (R : α → β → Prop) : Draft α → Draft β → Prop where
  | ok {items : List Item} {a : α} {b : β} (h : R a b) : Alike R ⟨items, .ok a⟩ ⟨items, .ok b⟩
  | error (items : List Item) (e e' : Error) : Alike R ⟨items, .error e⟩ ⟨items, .error e'⟩

variable {R : α → β → Prop} {S : γ → δ → Prop}

theorem Alike.bind {d : Draft α} {e : Draft β} {f : α → Draft γ} {g : β → Draft δ}
    (h : Alike R d e) (k : ∀ a b, R a b → Alike S (f a) (g b)) : Alike S (d >>= f) (e >>= g) := by
  cases h with
  | error items e e' =>
    rw [bind_of_error rfl, bind_of_error rfl]
    exact .error items e e'
  | @ok items a b h =>
    rw [bind_of_ok rfl, bind_of_ok rfl]
    generalize hx : f a = x, hy : g b = y
    have hk := k a b h
    rw [hx, hy] at hk
    cases hk with
    | ok hk => exact .ok hk
    | error js e e' => exact .error (items ++ js) e e'

theorem Alike.map {d : Draft α} {e : Draft β} {f : α → γ} {g : β → δ} (h : Alike R d e)
    (k : ∀ a b, R a b → S (f a) (g b)) : Alike S (f <$> d) (g <$> e) := by
  cases h with
  | error items e e' => exact .error items e e'
  | ok h => exact .ok (k _ _ h)

theorem Alike.of_right {d : Draft α} {e : Draft β} (h : ∀ x, e = x → Alike R d x) : Alike R d e :=
  h e rfl

theorem alike_pure {a : α} {b : β} (h : R a b) : Alike R (pure a) (pure b) :=
  .ok h

theorem alike_fail (e e' : Error) : Alike R (fail e) (fail e') :=
  .error [] e e'

/-- A draft without a result is like itself. -/
theorem alike_refl (d : Draft Unit) : Alike (fun _ _ => True) d d := by
  obtain ⟨items, outcome⟩ := d
  cases outcome with
  | error e => exact .error items e e
  | ok a => exact .ok trivial

theorem alike_put_bind (i : Item) {f : Unit → Draft γ} {g : Unit → Draft δ}
    (h : Alike S (f ()) (g ())) : Alike S (put i >>= f) (put i >>= g) :=
  (alike_refl (put i)).bind fun _ _ _ => h

/-- Going on with what was read at two places, where both readings found the same. -/
theorem alike_match (read : Scanner → Option (List Char × Scanner)) {s t : Scanner}
    (h : Scanner.Same (read s) (read t)) {d : Draft α} {d' : Draft β}
    {f : ∀ w u, read s = some (w, u) → Draft α} {g : ∀ w u, read t = some (w, u) → Draft β}
    (hnone : Alike R d d')
    (hsome : ∀ w u v (hs : read s = some (w, u)) (ht : read t = some (w, v)), u.rest = v.rest →
      Alike R (f w u hs) (g w v ht)) :
    Alike R
      (match hs : read s with
        | none => d
        | some (w, u) => f w u hs)
      (match ht : read t with
        | none => d'
        | some (w, v) => g w v ht) := by
  rcases h.cases with ⟨hs, ht⟩ | ⟨w, u, v, hs, ht, hrest⟩
  · split <;> rename_i hs'
    · split <;> rename_i ht'
      · exact hnone
      · rw [ht] at ht'
        cases ht'
    · rw [hs] at hs'
      cases hs'
  · split <;> rename_i hs'
    · rw [hs] at hs'
      cases hs'
    · split <;> rename_i ht'
      · rw [ht] at ht'
        cases ht'
      · rw [hs] at hs'
        rw [ht] at ht'
        cases hs'
        cases ht'
        exact hsome _ _ _ _ _ hrest

end Draft

namespace Context

open Draft Scanner

/-! ## Expressions -/

variable {s t : Scanner}

theorem alike_literal (ctx : Context) (h : s.rest = t.rest) :
    Alike Optional.Alike (ctx.literal s) (ctx.literal t) := by
  unfold literal
  refine alike_match (delimited? '"') (same_delimited? _ h) (alike_fail _ _)
    fun text u v _ _ hrest => ?_
  dsimp only
  split
  · exact alike_fail _ _
  · exact alike_put_bind _ (alike_pure (.found hrest))

theorem alike_markedConstant (ctx : Context) (h : s.rest = t.rest) :
    Alike Optional.Alike (ctx.markedConstant s) (ctx.markedConstant t) := by
  unfold markedConstant
  refine alike_match (delimited? '#') (same_delimited? _ h) (alike_fail _ _)
    fun name u v _ _ hrest => ?_
  split
  · exact (alike_refl _).bind fun _ _ _ => alike_pure (.found hrest)
  · exact alike_fail _ _

theorem alike_digits (word : List Char) (a b a' b' : Nat) :
    Alike (fun _ _ => True) (digits word a b) (digits word a' b') := by
  unfold digits
  split
  · exact alike_refl _
  · exact alike_fail _ _

mutual

theorem alike_expression (ctx : Context) (first : Bool) (s t : Scanner)
    (h : (s.skip (blanks ++ ['['])).rest = (t.skip (blanks ++ ['['])).rest) :
    Alike Optional.Alike (ctx.expression first s) (ctx.expression first t) := by
  have hskip : (s.skip (blanks ++ ['['])).rest.length ≤ s.rest.length :=
    Scanner.length_skip_le _ s
  rw [expression, expression]
  refine (alike_operand ctx first _ _ h).bind fun r q hrq => ?_
  cases hrq with
  | absent hrest => exact alike_pure (.absent hrest)
  | @found u v hu hv hrest =>
    have hrest' := rest_skip_congr (blanks ++ [',']) hrest
    have hlen := Scanner.length_skip_le (blanks ++ [',']) u
    refine alike_match (operator? Operator.chars) (same_operator? _ hrest') ?_
      fun spelling w w' hs _ hw => ?_
    · exact alike_put_bind _ (alike_pure (.found (rest_skip_congr _ hrest')))
    · have hlt := Scanner.length_operator_lt hs
      split
      · exact alike_fail _ _
      · exact alike_put_bind _ ((alike_expression ctx false w w' (rest_skip_congr _ hw)).map
          fun _ _ h => h.from _ _)
termination_by (s.rest.length, 1)
decreasing_by
  · exact lex_of_le hskip (by omega)
  · exact Prod.Lex.left _ _ (by omega)

theorem alike_operand (ctx : Context) (first : Bool) (s t : Scanner) (h : s.rest = t.rest) :
    Alike Optional.Alike (ctx.operand first s) (ctx.operand first t) := by
  have hmissing : Alike Optional.Alike
      (if first then (return .absent s (Nat.le_refl _) : Draft s.Optional)
        else .fail ((Error.of .missingOperand).inColumns s.offset (s.offset + 1)))
      (if first then (return .absent t (Nat.le_refl _) : Draft t.Optional)
        else .fail ((Error.of .missingOperand).inColumns t.offset (t.offset + 1))) := by
    split
    · exact alike_pure (.absent h)
    · exact alike_fail _ _
  rw [operand, operand]
  split
  · rename_i hs
    simp only [← h, hs]
    exact alike_literal ctx h
  · rename_i hs
    simp only [← h, hs]
    exact alike_markedConstant ctx h
  · rename_i hquote hmark
    rw [h] at hquote hmark
    refine Alike.of_right fun y hy => ?_
    split at hy
    · rename_i ht
      exact absurd ht (hquote _)
    · rename_i ht
      exact absurd ht (hmark _)
    · subst hy
      refine alike_match (word? operandStop) (same_word? _ h) hmissing
        fun word u v hs ht hrest => ?_
      by_cases hne : word = []
      · rw [dif_pos hne, dif_pos hne]
        exact hmissing
      · rw [dif_neg hne, dif_neg hne]
        have hshort := Scanner.length_word_lt hs hne
        dsimp only
        split
        · exact (alike_digits _ _ _ _ _).bind fun _ _ _ => alike_pure (.found hrest)
        · split
          · exact alike_put_bind _ (alike_pure (.found hrest))
          · exact (alike_refl _).bind fun _ _ _ => alike_pure (.found hrest)
          · exact alike_put_bind _ ((alike_call ctx _ _ u v hrest).map fun _ _ h => .found h)
          · exact alike_fail _ _
          · exact alike_fail _ _
termination_by (s.rest.length, 0)
decreasing_by exact Prod.Lex.left _ _ hshort

theorem alike_call (ctx : Context) (code : UInt16) (params : List Param) (s t : Scanner)
    (h : s.rest = t.rest) :
    Alike From.Alike (ctx.call code params s) (ctx.call code params t) := by
  rw [call, call]
  refine Alike.bind (R := fun _ _ => True) (alike_refl _) fun _ _ _ => ?_
  exact alike_put_bind _ (alike_put_bind _ (alike_arguments ctx 1 params s t h))
termination_by (s.rest.length, 3 + params.length)
decreasing_by exact Prod.Lex.right _ (by omega)

theorem alike_arguments (ctx : Context) (place : Nat) (params : List Param) (s t : Scanner)
    (h : s.rest = t.rest) :
    Alike From.Alike (ctx.arguments place params s) (ctx.arguments place params t) := by
  -- the shape is kept by name: its length is part of the measure
  obtain ⟨shape, hshape⟩ : ∃ shape, params = shape := ⟨_, rfl⟩
  rw [hshape, arguments.eq_def, arguments.eq_def]
  split
  · exact alike_put_bind _ (alike_pure h)
  · exact alike_put_bind _ (alike_pure h)
  · rename_i rest
    have hskip : (s.skip blanks).rest.length ≤ s.rest.length := Scanner.length_skip_le _ s
    have hrest := rest_skip_congr blanks h
    refine alike_match (word? blanks) (same_word? _ hrest) ?_ fun word u v hs _ hrest => ?_
    · exact (alike_arguments ctx (place + 1) rest _ _ hrest).map fun _ _ h => h
    · have hu := Scanner.length_word_le hs
      exact (alike_arguments ctx (place + 1) rest u v hrest).map fun _ _ h => h
  · rename_i rest
    refine alike_put_bind _ ((alike_expression ctx true s t (rest_skip_congr _ h)).bind
      fun r q hrq => ?_)
    cases hrq with
    | absent hrest =>
      exact alike_put_bind _ (alike_put_bind _ (alike_put_bind _ (alike_pure hrest)))
    | @found u v hu hv hrest =>
      exact (alike_arguments ctx place (.optional :: rest) u v hrest).map fun _ _ h => h
  · rename_i param rest _ _ _
    refine alike_put_bind _ ((alike_expression ctx true s t (rest_skip_congr _ h)).bind
      fun r q hrq => ?_)
    cases hrq with
    | absent hrest => exact alike_fail _ _
    | @found u v hu hv hrest =>
      exact (alike_arguments ctx (place + 1) rest u v hrest).map fun _ _ h => h
termination_by (s.rest.length, 2 + params.length)
decreasing_by
  · exact lex_of_le hskip (by simp [hshape])
  · exact lex_of_le (by omega) (by simp [hshape])
  · exact Prod.Lex.right _ (by omega)
  · exact Prod.Lex.left _ _ hu
  · exact Prod.Lex.right _ (by omega)
  · exact Prod.Lex.left _ _ hu

end

/-! ## Assignments -/

theorem alike_expectEnd (h : (s.skip blanks).rest = (t.skip blanks).rest) :
    Alike (fun _ _ => True) (Draft.ofExcept s.expectEnd) (Draft.ofExcept t.expectEnd) := by
  unfold expectEnd isEmpty
  dsimp only
  rw [h]
  split
  · exact .ok trivial
  · exact .error _ _ _

/-- Behind the same operator, blanks in front of the text that is left do not matter. -/
theorem alike_assignment (ctx : Context) (name : String) {u v : Scanner} {spelling : List Char}
    (hs : (s.skip blanks).operator? ['=', '+', '-', '*', '/', '%'] = some (spelling, u))
    (ht : (t.skip blanks).operator? ['=', '+', '-', '*', '/', '%'] = some (spelling, v))
    (h : (u.skip blanks).rest = (v.skip blanks).rest) :
    Alike (fun _ _ => True) (ctx.assignment name s) (ctx.assignment name t) := by
  have hvalue : (u.skip (blanks ++ ['['])).rest = (v.skip (blanks ++ ['['])).rest := by
    rw [← rest_skip_skip (List.subset_append_left blanks ['[']) u,
      ← rest_skip_skip (List.subset_append_left blanks ['[']) v]
    exact rest_skip_congr _ h
  unfold assignment
  dsimp only
  rw [hs, ht]
  dsimp only
  split
  · exact alike_fail _ _
  · refine alike_put_bind _ (alike_put_bind _ ?_)
    split
    · exact alike_expectEnd h
    · refine (alike_expression ctx true u v hvalue).bind fun r q hrq => ?_
      cases hrq with
      | absent _ => exact alike_fail _ _
      | found hrest => exact alike_expectEnd (rest_skip_congr _ hrest)

/-- Of two drafts that are alike, one succeeds as the other does. -/
theorem eq_ok_iff_of_alike {d e : Draft Unit} (h : Alike (fun _ _ => True) d e)
    {items : List Item} : d = ⟨items, .ok ()⟩ ↔ e = ⟨items, .ok ()⟩ := by
  cases h with
  | error _ _ _ => simp
  | ok _ => rfl

end Context

end ScriptMachine
