/-
  ScriptMachine.Proofs.Emitting

  Compiling an expression ends.  The writers of expressions, operands and calls may here
  only go round a limited number of times, and nothing in them says that the line gets
  shorter.  It does: what reports an operand has taken a character at least
  (`Context.operandWithin_consumes`).  So a round either shortens the line or advances in
  the shape of a call, and the line and the longest declared shape bound the rounds that
  can be needed; with as many the writers are those of the compiler
  (`Context.emitting_ends`).
-/

import Mathlib.Data.List.MinMax
import Mathlib.Order.Nat
import ScriptMachine.Compiler.Expression

namespace ScriptMachine

variable {α β γ δ : Type}

-- ============================================================================
-- What is taken from a line
-- ============================================================================

namespace Scanner

/-- Whether something was found, and what is left of the line. -/
def Optional.plain {s : Scanner} : s.Optional → Bool × Scanner
  | found t _ => (true, t)
  | absent t _ => (false, t)

theorem Optional.plain_from {s t : Scanner} (h : t.rest.length ≤ s.rest.length)
    (r : t.Optional) : (r.from h).plain = r.plain := by
  cases r <;> rfl

/-- Nothing was put back into the line, and what was found has taken a character. -/
structure Consumed (s : Scanner) (r : Bool × Scanner) : Prop where
  notLonger : r.2.rest.length ≤ s.rest.length
  shorter : r.1 = true → r.2.rest.length < s.rest.length

theorem Optional.consumed {s : Scanner} (r : s.Optional) : s.Consumed r.plain := by
  cases r with
  | found t h => exact ⟨Nat.le_of_lt h, fun _ => h⟩
  | absent t h => exact ⟨h, Bool.noConfusion⟩

theorem consumed_found {s t : Scanner} (h : t.rest.length < s.rest.length) :
    s.Consumed (true, t) :=
  ⟨Nat.le_of_lt h, fun _ => h⟩

theorem Consumed.from {s t : Scanner} {r : Bool × Scanner} (h : t.Consumed r)
    (ht : t.rest.length ≤ s.rest.length) : s.Consumed r :=
  ⟨Nat.le_trans h.notLonger ht, fun hr => Nat.lt_of_lt_of_le (h.shorter hr) ht⟩

end Scanner

-- ============================================================================
-- Drafts with a limited number of rounds
-- ============================================================================

namespace Draft

/-- A draft that may also end because it has no more rounds; then there is no result. -/
abbrev Limited (α : Type) := OptionT Draft α

/-- A draft that has rounds enough. -/
def limited (d : Draft α) : Limited α :=
  OptionT.mk (some <$> d)

/-- There are no more rounds. -/
def exhausted : Limited α :=
  OptionT.mk (pure none)

/-- A draft in front of another one; `k` and `l` are what is kept of their results. -/
theorem limited_bind {d : Draft α} {f : α → Draft β} {k : α → γ} {l : β → δ}
    {y : Limited γ} {g : γ → Limited δ} (hd : limited (k <$> d) = y)
    (hf : ∀ a, limited (l <$> f a) = g (k a)) : limited (l <$> (d >>= f)) = y >>= g := by
  subst hd
  obtain ⟨items, outcome⟩ := d
  cases outcome with
  | error e => rfl
  | ok a =>
    have ha : some <$> l <$> f a = (g (k a)).run := hf a
    show Draft.mk (items ++ (some <$> l <$> f a).items) (some <$> l <$> f a).outcome = _
    rw [ha]
    rfl

/-- The same where all of the first result is kept. -/
theorem limited_bind_limited {d : Draft α} {f : α → Draft β} {l : β → δ} {g : α → Limited δ}
    (hf : ∀ a, limited (l <$> f a) = g a) :
    limited (l <$> (d >>= f)) = limited d >>= g := by
  refine limited_bind (k := id) ?_ hf
  obtain ⟨items, outcome⟩ := d
  cases outcome <;> rfl

/-- A result behind which nothing is written. -/
theorem limited_bind_pure {d : Draft α} {k : α → γ} {y : Limited γ} (g : γ → δ)
    (hd : limited (k <$> d) = y) :
    limited ((fun a => g (k a)) <$> d) = y >>= fun c => pure (g c) := by
  subst hd
  obtain ⟨items, outcome⟩ := d
  cases outcome with
  | error e => rfl
  | ok a =>
    show Draft.mk items _ = Draft.mk (items ++ []) _
    rw [List.append_nil]
    rfl

/-- What is kept of a result that was changed. -/
theorem limited_map (f : α → β) (l : β → γ) (d : Draft α) :
    limited (l <$> f <$> d) = limited ((fun a => l (f a)) <$> d) := by
  obtain ⟨items, outcome⟩ := d
  cases outcome <;> rfl

/-- If there is a result, it satisfies `P`. -/
def Yields (P : α → Prop) (y : Limited α) : Prop :=
  ∀ a, y.run.outcome = .ok (some a) → P a

variable {P : α → Prop} {Q : β → Prop}

theorem yields_pure {a : α} (h : P a) : Yields P (pure a) := by
  rintro _ ⟨⟩
  exact h

theorem yields_exhausted : Yields P exhausted := by
  rintro _ ⟨⟩

theorem yields_fail (e : Error) : Yields P (limited (fail e)) := by
  rintro _ ⟨⟩

theorem yields_limited {d : Draft α} (h : ∀ a, d.outcome = .ok a → P a) :
    Yields P (limited d) := by
  intro a ha
  obtain ⟨items, outcome⟩ := d
  cases outcome with
  | error e => cases ha
  | ok b =>
    cases ha
    exact h a rfl

theorem Yields.bind {y : Limited α} {g : α → Limited β} (h : Yields P y)
    (hg : ∀ a, P a → Yields Q (g a)) : Yields Q (y >>= g) := by
  intro b hb
  have hy : ∀ d : Draft (Option α), (∀ a, d.outcome = .ok (some a) → P a) →
      (OptionT.mk d >>= g).run.outcome = .ok (some b) → Q b := by
    rintro ⟨items, outcome⟩ hd hb
    match outcome with
    | .error e => cases hb
    | .ok none => cases hb
    | .ok (some a) => exact hg a (hd a rfl) b hb
  exact hy y.run h hb

/-- Behind a draft of which only the items matter. -/
theorem yields_after {d : Draft α} {g : α → Limited β} (hg : ∀ a, Yields Q (g a)) :
    Yields Q (limited d >>= g) :=
  (yields_limited fun _ _ => trivial).bind fun a (_ : True) => hg a

end Draft

-- ============================================================================
-- Writers with a limited number of rounds
-- ============================================================================

/-- Number of parameters of the longest shape. -/
def Symbols.longestShape (t : Symbols) : Nat :=
  (t.map.toList.map fun x => match x.2 with
    | .function _ params => params.length
    | _ => 0).foldr max 0

namespace Context

open Draft

variable (ctx : Context) {L : Nat}

mutual

/-- Writes an expression; each operand takes a round. -/
def expressionWithin (rounds : Nat) (first : Bool) (s : Scanner) : Limited (Bool × Scanner) :=
  match rounds with
  | 0 => exhausted
  | rounds + 1 => do
    let t := s.skip (blanks ++ ['['])
    match ← operandWithin rounds first t with
    | (false, u) => return (false, u)
    | (true, u) =>
      let v := u.skip (blanks ++ [','])
      match v.operator? Operator.chars with
      | none => do
        limited (Draft.put (.operator .close))
        return (true, v.skip [']'])
      | some (spelling, w) =>
        match Operator.ofSpelling? spelling with
        | none =>
          limited
            (.fail ((Error.of (.notOperator (String.ofList spelling))).inColumns v.offset w.offset))
        | some op => do
          limited (Draft.put (.operator op))
          expressionWithin rounds false w
termination_by (rounds, 3)

/-- Writes one operand. -/
def operandWithin (rounds : Nat) (first : Bool) (s : Scanner) : Limited (Bool × Scanner) :=
  if s.rest.head? = some '"' then limited (Scanner.Optional.plain <$> ctx.literal s)
  else if s.rest.head? = some '#' then limited (Scanner.Optional.plain <$> ctx.markedConstant s)
  else
    let missing : Limited (Bool × Scanner) :=
      if first then return (false, s)
      else limited (.fail ((Error.of .missingOperand).inColumns s.offset (s.offset + 1)))
    match s.word? operandStop with
    | none => missing
    | some (word, t) =>
      if word = [] then missing
      else
        let name := String.ofList word
        if Text.isDigits word then do
          limited (digits word s.offset t.offset)
          return (true, t)
        else
          match ctx.symbols.get? name with
          | some .var => do
            limited (Draft.put (.var name))
            return (true, t)
          | some (.constant c) => do
            limited c.draft
            return (true, t)
          | some (.function code params) => do
            limited (Draft.put .call)
            let u ← callWithin rounds code params t
            return (true, u)
          | some (.command _) =>
            limited (.fail ((Error.of (.commandInExpression name)).inColumns s.offset t.offset))
          | none => limited (.fail ((Error.of (.undefined name)).inColumns s.offset t.offset))
termination_by (rounds, 2)

/-- Writes a call of a function and its arguments. -/
def callWithin (rounds : Nat) (code : UInt16) (params : List Param) (s : Scanner) :
    Limited Scanner := do
  limited (Draft.ofExcept (ctx.mayCall code))
  limited (Draft.put (.code .func))
  limited (Draft.put (.func code))
  argumentsWithin rounds 1 params s
termination_by (rounds, 1)

/-- Writes the arguments that a shape asks for; each step in the shape takes a round, and so
does each value of an optional parameter. -/
def argumentsWithin (rounds place : Nat) (params : List Param) (s : Scanner) : Limited Scanner :=
  match rounds with
  | 0 => exhausted
  | rounds + 1 =>
    match params with
    | [] | .stop :: _ => do
      limited (Draft.put .paramsEnd)
      return s
    | .skip :: rest =>
      let t := s.skip blanks
      match t.word? blanks with
      | none => argumentsWithin rounds (place + 1) rest t
      | some (_, v) => argumentsWithin rounds (place + 1) rest v
    | .optional :: rest => do
      limited (Draft.put (.param .optional))
      match ← expressionWithin rounds true s with
      | (true, t) => argumentsWithin rounds place (.optional :: rest) t
      | (false, t) => do
        limited (Draft.put (.var nullName))
        limited (Draft.put (.operator .close))
        limited (Draft.put .paramsEnd)
        return t
    | param :: rest => do
      limited (Draft.put (.param param))
      match ← expressionWithin rounds true s with
      | (true, t) => argumentsWithin rounds (place + 1) rest t
      | (false, _) => limited (Draft.fail (.of (.missingParameter place param)))
termination_by (rounds, 0)

end

-- ============================================================================
-- A round takes a character or a step in the shape
-- ============================================================================

variable {ctx}

theorem yields_plain {s : Scanner} (d : Draft s.Optional) :
    Yields s.Consumed (limited (Scanner.Optional.plain <$> d)) := by
  refine yields_limited fun r hr => ?_
  obtain ⟨items, outcome⟩ := d
  cases outcome with
  | error e => cases hr
  | ok r' =>
    cases hr
    exact r'.consumed

mutual

theorem expressionWithin_consumes (rounds : Nat) (first : Bool) (s : Scanner) :
    Yields s.Consumed (expressionWithin ctx rounds first s) := by
  match rounds with
  | 0 =>
    rw [expressionWithin]
    exact yields_exhausted
  | rounds + 1 =>
    rw [expressionWithin]
    have ht := Scanner.length_skip_le (blanks ++ ['[']) s
    refine (operandWithin_consumes rounds first _).bind ?_
    rintro ⟨found, u⟩ hu
    cases found with
    | false => exact yields_pure (hu.from ht)
    | true =>
      have hlt := hu.shorter rfl
      have hv := Scanner.length_skip_le (blanks ++ [',']) u
      dsimp only at hlt ⊢
      split
      · have hlast := Scanner.length_skip_le [']'] (u.skip (blanks ++ [',']))
        exact yields_after fun _ => yields_pure (Scanner.consumed_found (by omega))
      · rename_i spelling w hop
        have hw := Scanner.length_operator_lt hop
        split
        · exact yields_fail _
        · exact yields_after fun _ r hr =>
            (expressionWithin_consumes rounds false w r hr).from (by omega)
termination_by (rounds, 3)

theorem operandWithin_consumes (rounds : Nat) (first : Bool) (s : Scanner) :
    Yields s.Consumed (operandWithin ctx rounds first s) := by
  have hmissing : ∀ e, Yields s.Consumed
      (if first then pure (false, s) else limited (fail e)) := by
    intro e
    split
    · exact yields_pure ⟨Nat.le_refl _, Bool.noConfusion⟩
    · exact yields_fail e
  rw [operandWithin]
  split
  · exact yields_plain _
  · split
    · exact yields_plain _
    · dsimp only
      split
      · exact hmissing _
      · rename_i word t hw
        split
        · exact hmissing _
        · rename_i hne
          have hlt := Scanner.length_word_lt hw hne
          split
          · exact yields_after fun _ => yields_pure (Scanner.consumed_found hlt)
          · split
            · exact yields_after fun _ => yields_pure (Scanner.consumed_found hlt)
            · exact yields_after fun _ => yields_pure (Scanner.consumed_found hlt)
            · refine yields_after fun _ => (callWithin_consumes rounds _ _ t).bind fun u hu => ?_
              exact yields_pure (Scanner.consumed_found (Nat.lt_of_le_of_lt hu hlt))
            · exact yields_fail _
            · exact yields_fail _
termination_by (rounds, 2)

theorem callWithin_consumes (rounds : Nat) (code : UInt16) (params : List Param) (s : Scanner) :
    Yields (fun t => t.rest.length ≤ s.rest.length) (callWithin ctx rounds code params s) := by
  rw [callWithin]
  exact yields_after fun _ => yields_after fun _ => yields_after fun _ =>
    argumentsWithin_consumes rounds 1 params s
termination_by (rounds, 1)

theorem argumentsWithin_consumes (rounds place : Nat) (params : List Param) (s : Scanner) :
    Yields (fun t => t.rest.length ≤ s.rest.length)
      (argumentsWithin ctx rounds place params s) := by
  match rounds with
  | 0 =>
    rw [argumentsWithin]
    exact yields_exhausted
  | rounds + 1 =>
    -- the arguments that are left stand in what is left of the line
    have hrest : ∀ place params (t : Scanner), t.rest.length ≤ s.rest.length →
        Yields (fun u => u.rest.length ≤ s.rest.length)
          (argumentsWithin ctx rounds place params t) :=
      fun place params t ht u hu =>
        Nat.le_trans (argumentsWithin_consumes rounds place params t u hu) ht
    rw [argumentsWithin.eq_def]
    dsimp only
    split
    · exact yields_after fun _ => yields_pure (Nat.le_refl _)
    · exact yields_after fun _ => yields_pure (Nat.le_refl _)
    · have ht := Scanner.length_skip_le blanks s
      split
      · exact hrest _ _ _ ht
      · rename_i hw
        exact hrest _ _ _ (Nat.le_trans (Scanner.length_word_le hw) ht)
    · refine yields_after fun _ => (expressionWithin_consumes rounds true s).bind ?_
      rintro ⟨found, t⟩ ht
      cases found with
      | true => exact hrest _ _ _ ht.notLonger
      | false =>
        exact yields_after fun _ => yields_after fun _ => yields_after fun _ =>
          yields_pure ht.notLonger
    · refine yields_after fun _ => (expressionWithin_consumes rounds true s).bind ?_
      rintro ⟨found, t⟩ ht
      cases found with
      | true => exact hrest _ _ _ ht.notLonger
      | false => exact yields_fail _
termination_by (rounds, 0)

end

-- ============================================================================
-- Rounds enough
-- ============================================================================

/-- A character that is taken pays for `k` rounds. -/
theorem mul_add_le_of_lt {a b : Nat} (h : a < b) (k : Nat) : a * k + k ≤ b * k := by
  rw [← Nat.succ_mul]
  exact Nat.mul_le_mul_right k h

/-- No declared shape has more than `L` parameters. -/
def ShapesWithin (ctx : Context) (L : Nat) : Prop :=
  ∀ name code params, ctx.symbols.get? name = some (.function code params) → params.length ≤ L

theorem shapesWithin_longestShape (ctx : Context) : ctx.ShapesWithin ctx.symbols.longestShape := by
  intro name code params h
  have hmem : (name, Symbol.function code params) ∈ ctx.symbols.map.toList :=
    Std.TreeMap.mem_toList_iff_getElem?_eq_some.2 h
  exact List.le_max_of_le (List.mem_map_of_mem hmem) (Nat.le_refl _)

-- The rounds are counted down along the calls; what pays for them is `L + 2` for each
-- character of the line and one for each parameter of the shape that is left.
mutual

theorem expressionWithin_eq (hshape : ctx.ShapesWithin L) {rounds : Nat} (first : Bool)
    (s : Scanner) (h : s.rest.length * (L + 2) < rounds) :
    limited (Scanner.Optional.plain <$> ctx.expression first s) =
      expressionWithin ctx rounds first s := by
  match rounds, h with
  | rounds + 1, h =>
    rw [expressionWithin, expression]
    have ht := Nat.mul_le_mul_right (L + 2) (Scanner.length_skip_le (blanks ++ ['[']) s)
    refine limited_bind (operandWithin_eq hshape first _ (by omega)) ?_
    rintro (⟨u, hu⟩ | ⟨u, hu⟩)
    · dsimp only [Scanner.Optional.plain]
      split
      · rename_i hop
        simp only [hop]
        exact limited_bind_limited fun _ => rfl
      · rename_i spelling w hop
        simp only [hop]
        cases Operator.ofSpelling? spelling with
        | none => rfl
        | some op =>
          refine limited_bind_limited fun _ => ?_
          have hv := Scanner.length_skip_le (blanks ++ [',']) u
          have hw := Scanner.length_operator_lt hop
          have hlt : w.rest.length < (s.skip (blanks ++ ['['])).rest.length := by omega
          have hpaid := mul_add_le_of_lt hlt (L + 2)
          simp only [limited_map, Scanner.Optional.plain_from]
          exact expressionWithin_eq hshape false w (by omega)
    · rfl
termination_by (rounds, 3)

theorem operandWithin_eq (hshape : ctx.ShapesWithin L) {rounds : Nat} (first : Bool) (s : Scanner)
    (h : s.rest.length * (L + 2) ≤ rounds) :
    limited (Scanner.Optional.plain <$> ctx.operand first s) =
      operandWithin ctx rounds first s := by
  have hmissing : ∀ e, limited (Scanner.Optional.plain <$>
      (if first then pure (.absent s (Nat.le_refl _)) else fail e : Draft s.Optional)) =
      if first then pure (false, s) else limited (fail e) := by
    intro e
    cases first <;> rfl
  rw [operandWithin, operand]
  split
  · rename_i hrest
    rw [hrest]
    rfl
  · rename_i hrest
    rw [hrest]
    rfl
  · rename_i hquote hmark
    have hhead : ∀ c, (∀ tail, s.rest = c :: tail → False) → s.rest.head? ≠ some c := by
      intro c hc heq
      obtain ⟨tail, hrest⟩ := List.head?_eq_some_iff.1 heq
      exact hc tail hrest
    rw [if_neg (hhead _ hquote), if_neg (hhead _ hmark)]
    dsimp only
    split
    · rename_i hw
      simp only [hw]
      exact hmissing _
    · rename_i word t hw
      simp only [hw]
      by_cases hne : word = []
      · rw [dif_pos hne, if_pos hne]
        exact hmissing _
      · rw [dif_neg hne, if_neg hne]
        split
        · exact limited_bind_limited fun _ => rfl
        · cases hsymbol : ctx.symbols.get? (String.ofList word) with
          | none => rfl
          | some symbol =>
            cases symbol with
            | var => exact limited_bind_limited fun _ => rfl
            | constant value => exact limited_bind_limited fun _ => rfl
            | command word => rfl
            | function code params =>
              refine limited_bind_limited fun _ => ?_
              have hpaid := mul_add_le_of_lt (Scanner.length_word_lt hw hne) (L + 2)
              have hlong := hshape _ _ _ hsymbol
              rw [limited_map]
              exact limited_bind_pure (fun u => (true, u))
                (callWithin_eq hshape code params t (by omega))
termination_by (rounds, 2)

theorem callWithin_eq (hshape : ctx.ShapesWithin L) {rounds : Nat} (code : UInt16)
    (params : List Param) (s : Scanner)
    (h : s.rest.length * (L + 2) + params.length < rounds) :
    limited (Subtype.val <$> ctx.call code params s) = callWithin ctx rounds code params s := by
  rw [callWithin, call]
  refine limited_bind_limited fun _ => limited_bind_limited fun _ =>
    limited_bind_limited fun _ => ?_
  exact argumentsWithin_eq hshape 1 params s h
termination_by (rounds, 1)

theorem argumentsWithin_eq (hshape : ctx.ShapesWithin L) {rounds : Nat} (place : Nat)
    (params : List Param) (s : Scanner)
    (h : s.rest.length * (L + 2) + params.length < rounds) :
    limited (Subtype.val <$> ctx.arguments place params s) =
      argumentsWithin ctx rounds place params s := by
  match rounds, h with
  | rounds + 1, h =>
    cases params with
    | nil =>
      rw [argumentsWithin, arguments]
      exact limited_bind_limited fun _ => rfl
    | cons param rest =>
      rw [List.length_cons] at h
      cases param with
      | stop =>
        rw [argumentsWithin, arguments]
        exact limited_bind_limited fun _ => rfl
      | skip =>
        rw [argumentsWithin, arguments]
        have hskip := Scanner.length_skip_le blanks s
        have ht := Nat.mul_le_mul_right (L + 2) hskip
        dsimp only
        split
        · rename_i hw
          simp only [hw]
          rw [limited_map]
          exact argumentsWithin_eq hshape (place + 1) rest _ (by omega)
        · rename_i v hw
          simp only [hw]
          have hv := Nat.mul_le_mul_right (L + 2) (Scanner.length_word_le hw)
          rw [limited_map]
          exact argumentsWithin_eq hshape (place + 1) rest v (by omega)
      | optional =>
        rw [argumentsWithin, arguments]
        refine limited_bind_limited fun _ => ?_
        refine limited_bind (expressionWithin_eq hshape true s (by omega)) ?_
        rintro (⟨t, ht⟩ | ⟨t, ht⟩)
        · dsimp only [Scanner.Optional.plain]
          have hpaid := mul_add_le_of_lt ht (L + 2)
          rw [limited_map]
          refine argumentsWithin_eq hshape place (.optional :: rest) t ?_
          rw [List.length_cons]
          omega
        · exact limited_bind_limited fun _ => limited_bind_limited fun _ =>
            limited_bind_limited fun _ => rfl
      | str | num | float | value =>
        rw [argumentsWithin.eq_def, arguments.eq_def]
        refine limited_bind_limited fun _ => ?_
        refine limited_bind (expressionWithin_eq hshape true s (by omega)) ?_
        rintro (⟨t, ht⟩ | ⟨t, ht⟩)
        · dsimp only [Scanner.Optional.plain]
          have hpaid := mul_add_le_of_lt ht (L + 2)
          rw [limited_map]
          exact argumentsWithin_eq hshape (place + 1) rest t (by omega)
        · rfl
termination_by (rounds, 0)

end

/-- Compiling an expression ends, whatever the symbols and the line.  With any number of
rounds, an operand or an expression that is reported has taken a character from the line at
least, and a call has put nothing back.  A round of an expression stands for an operand, a
round of a call for a step in its shape or for a value of an optional parameter; so for each
character of the line there are at most as many rounds as the longest shape has parameters,
and two.  With more rounds than that the writers come to what those of the compiler come to,
in the items that are written and in how they end. -/
theorem emitting_ends (ctx : Context) (s : Scanner) :
    (∀ rounds first t, ((operandWithin ctx rounds first s).run.outcome = .ok (some (true, t)) ∨
        (expressionWithin ctx rounds first s).run.outcome = .ok (some (true, t))) →
      t.rest.length < s.rest.length) ∧
    (∀ rounds code params t, (callWithin ctx rounds code params s).run.outcome = .ok (some t) →
      t.rest.length ≤ s.rest.length) ∧
    (∀ rounds first, s.rest.length * (ctx.symbols.longestShape + 2) < rounds →
      operandWithin ctx rounds first s = limited (Scanner.Optional.plain <$> ctx.operand first s) ∧
      expressionWithin ctx rounds first s =
        limited (Scanner.Optional.plain <$> ctx.expression first s)) ∧
    ∀ rounds code params,
      s.rest.length * (ctx.symbols.longestShape + 2) + params.length < rounds →
      callWithin ctx rounds code params s =
        limited (Subtype.val <$> ctx.call code params s) := by
  have hshape := ctx.shapesWithin_longestShape
  refine ⟨?_, fun rounds code params t ht => callWithin_consumes rounds code params s t ht,
    fun rounds first h => ⟨?_, ?_⟩, fun rounds code params h => ?_⟩
  · rintro rounds first t (ht | ht)
    · exact (operandWithin_consumes rounds first s _ ht).shorter rfl
    · exact (expressionWithin_consumes rounds first s _ ht).shorter rfl
  · exact (operandWithin_eq hshape first s (Nat.le_of_lt h)).symm
  · exact (expressionWithin_eq hshape first s h).symm
  · exact (callWithin_eq hshape code params s h).symm

/-- A table with one function: it takes a word, and values as long as there are any. -/
def oneShape : Context where
  symbols := Symbols.insert ⟨∅⟩ "show" (.function 7 [.skip, .optional, .stop])
  maxString := 80
  mayCall _ := .ok ()

theorem operandWithin_digits : (operandWithin oneShape 0 true (.ofLine ['1', '2'])).run.outcome =
    .ok (some (true, ⟨2, []⟩)) := by
  rw [operandWithin]
  rfl

/-- Calls as operands of a call, each with values until there are no more. -/
theorem oneShape_ends :
    (⟨2, []⟩ : Scanner).rest.length < (Scanner.ofLine ['1', '2']).rest.length ∧
    expressionWithin oneShape 100 true (.ofLine "show a 1, show b 2".toList) =
      limited (Scanner.Optional.plain <$>
        oneShape.expression true (.ofLine "show a 1, show b 2".toList)) ∧
    callWithin oneShape 100 7 [.skip, .optional, .stop] (.ofLine "a 1, show b 2".toList) =
      limited (Subtype.val <$>
        oneShape.call 7 [.skip, .optional, .stop] (.ofLine "a 1, show b 2".toList)) := by
  obtain ⟨hshorter, _⟩ := emitting_ends oneShape (.ofLine ['1', '2'])
  obtain ⟨_, _, hwithin, _⟩ := emitting_ends oneShape (.ofLine "show a 1, show b 2".toList)
  obtain ⟨_, _, _, hcall⟩ := emitting_ends oneShape (.ofLine "a 1, show b 2".toList)
  exact ⟨hshorter 0 true _ (.inl operandWithin_digits),
    (hwithin 100 true (by decide +kernel)).2, hcall 100 7 _ (by decide +kernel)⟩

end Context

end ScriptMachine
