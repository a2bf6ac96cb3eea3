/-
  ScriptMachine.Proofs.Columns.Expressions

  Which errors expressions have, and where they report them.  The columns of an error lie
  inside the line; the exception is a missing operand at the end of the line, which is
  reported in the column behind it (`Error.Marks`).  Only a call can fail for standing outside
  the body of a case, and none does where calls are permitted (`Error.Fits`).  Every error of a
  draft over a line is of this kind, and a draft that goes well stops inside the line
  (`Context.fits_expression` and its companions).
-/

import ScriptMachine.Compiler.Expression
import ScriptMachine.Proofs.Columns.Boundaries

namespace ScriptMachine

variable {α β : Type}

-- ============================================================================
-- Errors on a line
-- ============================================================================

/-- The columns of the error lie inside the line; or an operand is missing where the line
ends, and the column is the one behind it. -/
def Error.Marks (line : List Char) (e : Error) : Prop :=
  e.columns.Inside line ∨
    e.kind = Cause.missingOperand.kind ∧ e.message = Cause.missingOperand.message ∧
      e.columns = ⟨Text.utf8Length line, Text.utf8Length line + 1⟩

/-- The error is at no line yet, and its columns are those of this one.  Where `permitted`
holds, it is not the error of standing outside the body of a case. -/
structure Error.Fits (line : List Char) (permitted : Prop) (e : Error) : Prop where
  unplaced : e.line = none
  marks : e.Marks line
  kind : permitted → e.kind ≠ .illegalInChoose

/-- A result satisfies `Q`, an error fits the line. -/
def FitsLine (line : List Char) (permitted : Prop) (Q : α → Prop) : Except Error α → Prop
  | .ok a => Q a
  | .error e => e.Fits line permitted

/-- Nothing is asked of the result. -/
abbrev FitsAny (line : List Char) (permitted : Prop) (x : Except Error α) : Prop :=
  FitsLine line permitted (fun _ => True) x

section
variable {line : List Char} {p : Prop} {Q : α → Prop} {R : β → Prop}

/-- The fewer places permit a call, the less is said of an error. -/
theorem Error.Fits.mono {q : Prop} {e : Error} (h : e.Fits line p) (hq : q → p) : e.Fits line q :=
  ⟨h.unplaced, h.marks, fun hp => h.kind (hq hp)⟩

theorem Error.fits_of {cause : Cause} (h : cause.kind ≠ .illegalInChoose) :
    (Error.of cause).Fits line p :=
  ⟨rfl, .inl (Columns.inside_zero line), fun _ => h⟩

theorem Error.fits_inColumns {cause : Cause} {start stop : Nat}
    (hkind : cause.kind ≠ .illegalInChoose) (h : Columns.Inside line ⟨start, stop⟩) :
    ((Error.of cause).inColumns start stop).Fits line p :=
  ⟨rfl, .inl h, fun _ => hkind⟩

/-- A missing operand in front of the end of the line, or at it. -/
theorem Error.fits_missingOperand {s : Scanner} (hs : s.At line)
    (h : s.rest = [] ∨ ∃ c rest, s.rest = c :: rest ∧ c.utf8Size = 1) :
    ((Error.of .missingOperand).inColumns s.offset (s.offset + 1)).Fits line p := by
  rcases h with hrest | ⟨c, rest, hrest, hc⟩
  · have hend := hs.lineEnd_eq
    rw [Scanner.lineEnd, hrest, Text.utf8Length_nil, Nat.add_zero] at hend
    rw [hend]
    exact ⟨rfl, .inr ⟨rfl, rfl, rfl⟩, by rintro - ⟨⟩⟩
  · exact fits_inColumns (by rintro ⟨⟩) (hs.inside_next hrest hc)

theorem fits_error_of {cause : Cause} (h : cause.kind ≠ .illegalInChoose) :
    FitsLine line p Q (.error (.of cause) : Except Error α) :=
  Error.fits_of h

theorem FitsLine.bind {x : Except Error α} {f : α → Except Error β} (hx : FitsLine line p Q x)
    (hf : ∀ a, Q a → FitsLine line p R (f a)) : FitsLine line p R (x >>= f) := by
  cases x with
  | ok a => exact hf a hx
  | error e => exact hx

/-- What is left over is reported up to the end of the line. -/
theorem Scanner.fits_expectEnd {s : Scanner} (hs : s.At line) : FitsAny line p s.expectEnd := by
  unfold expectEnd
  dsimp only
  split
  · trivial
  · exact Error.fits_inColumns nofun (hs.skip blanks).inside_lineEnd

end

-- ============================================================================
-- Drafts
-- ============================================================================

/-- Where the line goes on. -/
def Scanner.Optional.next {s : Scanner} : s.Optional → Scanner
  | found t _ | absent t _ => t

@[simp] theorem Scanner.Optional.next_from {s t : Scanner}
    (h : t.rest.length ≤ s.rest.length) (r : t.Optional) : (r.from h).next = r.next := by
  cases r <;> rfl

namespace Draft

variable {line : List Char} {p : Prop} {Q : α → Prop} {R : β → Prop}

theorem fits_bind {d : Draft α} {f : α → Draft β} (hd : FitsLine line p Q d.outcome)
    (hf : ∀ a, Q a → FitsLine line p R (f a).outcome) : FitsLine line p R (d >>= f).outcome := by
  cases h : d.outcome with
  | ok a =>
    rw [bind_of_ok h]
    rw [h] at hd
    exact hf a hd
  | error e =>
    rw [bind_of_error h]
    rw [h] at hd
    exact hd

theorem fits_map {d : Draft α} {f : α → β} (hd : FitsLine line p (fun a => R (f a)) d.outcome) :
    FitsLine line p R (f <$> d).outcome := by
  rw [outcome_map]
  cases h : d.outcome <;> rw [h] at hd <;> exact hd

theorem fits_put (i : Item) : FitsAny line p (put i).outcome := by
  cases i with
  | var s | str s =>
    simp only [put, Item.check]
    split
    · trivial
    · exact fits_error_of nofun
  | _ => trivial

theorem fits_put_bind (i : Item) {f : Unit → Draft β} (hf : FitsLine line p R (f ()).outcome) :
    FitsLine line p R (put i >>= f).outcome :=
  fits_bind (fits_put i) fun _ _ => hf

end Draft

namespace Context

open Draft

variable {ctx : Context} {line : List Char} {p : Prop} {s : Scanner}

/-- The place behind an operand or an expression is inside the line. -/
abbrev FitsOptional (line : List Char) (permitted : Prop) (d : Draft s.Optional) : Prop :=
  FitsLine line permitted (fun r => r.next.At line) d.outcome

theorem fits_literal (hs : s.At line) : FitsOptional line p (ctx.literal s) := by
  unfold literal
  split
  · exact Error.fits_inColumns (by rintro ⟨⟩) hs.inside_lineEnd
  · rename_i text t h
    have ht := hs.delimited? h
    dsimp only
    split
    · exact Error.fits_inColumns (by rintro ⟨⟩)
        (hs.inside ht (Nat.le_of_lt (Scanner.length_delimited_lt h)))
    · exact fits_put_bind _ ht

theorem fits_draft (k : Constant) : FitsAny line p k.draft.outcome := by
  cases k <;> exact fits_put _

theorem fits_markedConstant (hs : s.At line) {rest : List Char} (hrest : s.rest = '#' :: rest) :
    FitsOptional line p (ctx.markedConstant s) := by
  unfold markedConstant
  split
  · exact Error.fits_inColumns (by rintro ⟨⟩) (hs.inside_next hrest rfl)
  · rename_i name t h
    have ht := hs.delimited? h
    split
    · exact fits_bind (fits_draft _) fun _ _ => ht
    · exact Error.fits_inColumns (by rintro ⟨⟩)
        (hs.inside ht (Nat.le_of_lt (Scanner.length_delimited_lt h)))

theorem fits_digits (word : List Char) {start stop : Nat}
    (h : Columns.Inside line ⟨start, stop⟩) : FitsAny line p (digits word start stop).outcome := by
  unfold digits
  split
  · exact fits_put _
  · exact Error.fits_inColumns nofun h

theorem utf8Size_of_operandStop (c : Char) (h : c ∈ operandStop) : c.utf8Size = 1 := by
  have hall : operandStop.all (·.utf8Size == 1) = true := by decide
  exact beq_iff_eq.1 (List.all_eq_true.1 hall c h)

/-- Where a call is refused, the error fits the line. -/
def FitsCalls (line : List Char) (permitted : Prop) (ctx : Context) : Prop :=
  ∀ code, FitsAny line permitted (ctx.mayCall code)

mutual

theorem fits_expression (hcall : ctx.FitsCalls line p) (first : Bool)
    {s : Scanner} (hs : s.At line) :
    FitsOptional line p (ctx.expression first s) := by
  have hskip : (s.skip (blanks ++ ['['])).rest.length ≤ s.rest.length :=
    Scanner.length_skip_le _ s
  rw [expression]
  refine fits_bind (fits_operand hcall first (hs.skip _)) fun r hr => ?_
  cases r with
  | absent u hu => exact hr
  | found u hu =>
    have hv := Scanner.At.skip hr (blanks ++ [','])
    have hlen := Scanner.length_skip_le (blanks ++ [',']) u
    dsimp only
    split
    · exact fits_put_bind _ (hv.skip _)
    · rename_i spelling w hop
      have hw := hv.operator? hop
      have hlt := Scanner.length_operator_lt hop
      split
      · exact Error.fits_inColumns nofun (hv.inside hw (Nat.le_of_lt hlt))
      · refine fits_put_bind _ (fits_map ?_)
        simp only [Scanner.Optional.next_from]
        exact fits_expression hcall false hw
termination_by (s.rest.length, 1)
decreasing_by
  · exact lex_of_le hskip (by omega)
  · exact Prod.Lex.left _ _ (by omega)

theorem fits_operand (hcall : ctx.FitsCalls line p) (first : Bool) {s : Scanner} (hs : s.At line) :
    FitsOptional line p (ctx.operand first s) := by
  have hmissing (h : s.rest = [] ∨ ∃ c rest, s.rest = c :: rest ∧ c.utf8Size = 1) :
      FitsOptional line p
        (if first then (return .absent s (Nat.le_refl _) : Draft s.Optional)
          else .fail ((Error.of .missingOperand).inColumns s.offset (s.offset + 1))) := by
    split
    · exact hs
    · exact Error.fits_missingOperand hs h
  rw [operand]
  split
  · exact fits_literal hs
  · rename_i hrest
    exact fits_markedConstant hs hrest
  · dsimp only
    split
    · rename_i hw
      exact hmissing (.inl (Scanner.rest_eq_nil_of_word? hw))
    · rename_i word t hw
      have ht := hs.word? hw
      by_cases hne : word = []
      · subst hne
        obtain ⟨_, c, rest, hrest, hc⟩ := Scanner.of_word?_nil hw
        exact hmissing (.inr ⟨c, rest, hrest, utf8Size_of_operandStop c hc⟩)
      · rw [dif_neg hne]
        have hshort := Scanner.length_word_lt hw hne
        have hinside := hs.inside ht (Nat.le_of_lt hshort)
        split
        · exact fits_bind (fits_digits _ hinside) fun _ _ => ht
        · split
          · exact fits_put_bind _ ht
          · exact fits_bind (fits_draft _) fun _ _ => ht
          · exact fits_put_bind _ (fits_map (fits_call hcall _ _ ht))
          · exact Error.fits_inColumns nofun hinside
          · exact Error.fits_inColumns nofun hinside
termination_by (s.rest.length, 0)
decreasing_by exact Prod.Lex.left _ _ hshort

theorem fits_call (hcall : ctx.FitsCalls line p) (code : UInt16) (params : List Param)
    {s : Scanner} (hs : s.At line) :
    FitsLine line p (fun u => u.1.At line) (ctx.call code params s).outcome := by
  rw [call]
  exact fits_bind (hcall code) fun _ _ => fits_put_bind _ (fits_put_bind _
    (fits_arguments hcall 1 params hs))
termination_by (s.rest.length, 3 + params.length)
decreasing_by exact Prod.Lex.right _ (by omega)

theorem fits_arguments (hcall : ctx.FitsCalls line p) (place : Nat) (params : List Param)
    {s : Scanner} (hs : s.At line) :
    FitsLine line p (fun u => u.1.At line) (ctx.arguments place params s).outcome := by
  -- the shape is kept by name: its length is part of the measure
  obtain ⟨shape, hshape⟩ : ∃ shape, params = shape := ⟨_, rfl⟩
  rw [hshape, arguments.eq_def]
  split
  · exact fits_put_bind _ hs
  · exact fits_put_bind _ hs
  · rename_i rest
    have hskip : (s.skip blanks).rest.length ≤ s.rest.length := Scanner.length_skip_le _ s
    dsimp only
    split
    · exact fits_map (fits_arguments hcall (place + 1) rest (hs.skip blanks))
    · rename_i v hw
      have hv := Scanner.length_word_le hw
      exact fits_map (fits_arguments hcall (place + 1) rest ((hs.skip blanks).word? hw))
  · rename_i rest
    refine fits_put_bind _ (fits_bind (fits_expression hcall true hs) fun r hr => ?_)
    cases r with
    | absent t ht => exact fits_put_bind _ (fits_put_bind _ (fits_put_bind _ hr))
    | found t ht => exact fits_map (fits_arguments hcall place (.optional :: rest) hr)
  · rename_i param rest _ _ _
    refine fits_put_bind _ (fits_bind (fits_expression hcall true hs) fun r hr => ?_)
    cases r with
    | absent t ht => exact fits_error_of nofun
    | found t ht => exact fits_map (fits_arguments hcall (place + 1) rest hr)
termination_by (s.rest.length, 2 + params.length)
decreasing_by
  · exact lex_of_le hskip (by simp [hshape])
  · exact lex_of_le (by omega) (by simp [hshape])
  · exact Prod.Lex.right _ (by omega)
  · exact Prod.Lex.left _ _ ht
  · exact Prod.Lex.right _ (by omega)
  · exact Prod.Lex.left _ _ ht

end

section
variable (hcall : ctx.FitsCalls line p)
include hcall

/-- An expression that ends its line, or a failure where there is none. -/
theorem fits_value_bind (hs : s.At line) {f : s.Optional → Draft Unit}
    (hfound : ∀ t h, f (.found t h) = Draft.ofExcept t.expectEnd)
    (habsent : ∀ t h, t.At line → FitsAny line p (f (.absent t h)).outcome) :
    FitsAny line p (ctx.value s >>= f).outcome := by
  refine fits_bind (fits_expression hcall true hs) fun r hr => ?_
  cases r with
  | found t h =>
    rw [hfound]
    exact Scanner.fits_expectEnd hr
  | absent t h => exact habsent t h hr

theorem fits_lastValue (opcode : Opcode) {missing : Cause}
    (hmissing : missing.kind ≠ .illegalInChoose) (hs : s.At line) :
    FitsAny line p (ctx.lastValue opcode missing s).outcome :=
  fits_put_bind _ (fits_value_bind hcall hs (fun _ _ => rfl) fun _ _ _ => fits_error_of hmissing)

theorem fits_assignment (name : String) (hs : s.At line) :
    FitsAny line p (ctx.assignment name s).outcome := by
  have ht := hs.skip blanks
  unfold assignment
  dsimp only
  split
  · exact Scanner.fits_expectEnd ht
  · rename_i spelling u hop
    have hu := ht.operator? hop
    have hlt := Scanner.length_operator_lt hop
    split
    · exact Error.fits_inColumns nofun (ht.inside hu (Nat.le_of_lt hlt))
    · refine fits_put_bind _ (fits_put_bind _ ?_)
      split
      · exact Scanner.fits_expectEnd hu
      · exact fits_value_bind hcall hu (fun _ _ => rfl) fun v hle hv =>
          Error.fits_inColumns nofun (ht.inside hv (Nat.le_trans hle (Nat.le_of_lt hlt)))

end

end Context

end ScriptMachine
