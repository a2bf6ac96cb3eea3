/-
  ScriptMachine.Proofs.Structured.Drafts

  What the compiler writes for the expressions and assignments of a structured
  script.  It writes the instruction tree of an expression exactly when all
  variables of the expression are known (`value_bind_eq_ok_iff`), and the
  instruction of an assignment exactly when its name fits the stream as well
  (`assignment_eq_ok_iff`).
-/

import ScriptMachine.Proofs.Writing
import ScriptMachine.Proofs.Structured.Lexing

namespace ScriptMachine

/-! ## Scanning words -/

namespace Scanner

/-- A run ends where a character follows that does not satisfy the test. -/
theorem run_append {p : Char → Bool} {w cs : List Char} {o : Nat} (hw : ∀ c ∈ w, p c = true)
    (hcs : ∀ c ∈ cs.head?, p c = false) :
    run p ⟨o, w ++ cs⟩ = (w, ⟨o + Text.utf8Length w, cs⟩) := by
  have hend : cs.takeWhile p = [] ∧ cs.dropWhile p = cs := by
    cases cs with
    | nil => exact ⟨rfl, rfl⟩
    | cons c cs => simp [hcs c rfl]
  unfold run
  rw [List.takeWhile_append_of_pos hw, List.dropWhile_append_of_pos hw, hend.1, hend.2,
    List.append_nil]

theorem skip_append {set w cs : List Char} {o : Nat} (hw : ∀ c ∈ w, set.contains c = true)
    (hcs : ∀ c ∈ cs.head?, set.contains c = false) :
    skip set ⟨o, w ++ cs⟩ = ⟨o + Text.utf8Length w, cs⟩ := by
  rw [skip, run_append hw hcs]

/-- Nothing is skipped in front of a character that is not of the set. -/
theorem skip_of_head {set cs : List Char} {o : Nat} (h : ∀ c ∈ cs.head?, set.contains c = false) :
    skip set ⟨o, cs⟩ = ⟨o, cs⟩ :=
  skip_append (w := []) (by simp) h

theorem skip_cons {set cs : List Char} {c : Char} {o : Nat} (hc : set.contains c = true)
    (h : ∀ d ∈ cs.head?, set.contains d = false) :
    skip set ⟨o, c :: cs⟩ = ⟨o + Text.utf8Length [c], cs⟩ :=
  skip_append (List.forall_mem_singleton.2 hc) h

/-- A word ends where a character of `stop` follows. -/
theorem word?_append {stop w cs : List Char} {o : Nat} (hne : w ≠ [])
    (hw : ∀ c ∈ w, stop.contains c = false) (hcs : ∀ c ∈ cs.head?, stop.contains c = true) :
    word? stop ⟨o, w ++ cs⟩ = some (w, ⟨o + Text.utf8Length w, cs⟩) := by
  have hrun := @run_append (fun c => !stop.contains c) w cs o
    (fun c hc => by rw [hw c hc]; rfl) fun c hc => by rw [hcs c hc]; rfl
  have hempty : ¬ (w ++ cs).isEmpty = true := by
    cases w with
    | nil => exact absurd rfl hne
    | cons c w => simp
  rw [word?, if_neg hempty, hrun]

/-- An operator ends where a character of another set follows. -/
theorem operator?_append {set w cs : List Char} {o : Nat} (hne : w ≠ [])
    (hw : ∀ c ∈ w, set.contains c = true) (hcs : ∀ c ∈ cs.head?, set.contains c = false) :
    operator? set ⟨o, w ++ cs⟩ = some (w, ⟨o + Text.utf8Length w, cs⟩) := by
  have hempty : ¬ w.isEmpty = true := by
    cases w with
    | nil => exact absurd rfl hne
    | cons c w => simp
  rw [operator?, run_append hw hcs]
  exact if_neg hempty

/-- A literal ends at its closing delimiter. -/
theorem delimited?_append {d : Char} {inside cs : List Char} {o : Nat}
    (hi : ∀ c ∈ inside, c ≠ d) :
    ∃ o', delimited? d ⟨o, d :: (inside ++ d :: cs)⟩ = some (inside, ⟨o', cs⟩) := by
  have hrun := @run_append (· != d) inside (d :: cs) (o + d.utf8Size) (by simpa using hi) (by simp)
  refine ⟨o + d.utf8Size + Text.utf8Length inside + d.utf8Size, ?_⟩
  unfold delimited?
  simp only [if_true, hrun]

end Scanner

namespace Context

/-! ## Reading expressions -/

section
variable {ctx : Context} {first : Bool} {s t u v w : Scanner} {items : List Item}
  (ht : s.skip (blanks ++ ['[']) = t)
  (ho : ∃ h, ctx.operand first t = ⟨items, .ok (.found u h)⟩)
  (hv : u.skip (blanks ++ [',']) = v)
include ht ho hv

/-- An expression with no operator behind its first operand. -/
theorem expression_of_operator?_none (hop : v.operator? Operator.chars = none) :
    ∃ h, ctx.expression first s =
      ⟨items ++ [.operator .close], .ok (.found (v.skip [']']) h)⟩ := by
  subst ht hv
  obtain ⟨h, ho⟩ := ho
  have hshort := Scanner.length_skip_le (blanks ++ ['[']) s
  have hu := Scanner.length_skip_le (blanks ++ [',']) u
  have hclose := Scanner.length_skip_le [']'] (u.skip (blanks ++ [',']))
  refine ⟨by omega, ?_⟩
  rw [expression, ho, Draft.bind_of_ok rfl]
  dsimp only
  split
  · rw [Draft.bind_of_ok rfl]
    rfl
  · rename_i hsome
    rw [hop] at hsome
    cases hsome

/-- An expression with an operator behind its first operand. -/
theorem expression_of_operator?_some {spelling : List Char} {op : Operator}
    (hop : v.operator? Operator.chars = some (spelling, w))
    (hspelling : Operator.ofSpelling? spelling = some op) :
    ∃ h : w.rest.length ≤ s.rest.length, ctx.expression first s =
      ⟨items ++ .operator op :: (ctx.expression false w).items,
        (ctx.expression false w).outcome.map (·.from h)⟩ := by
  subst ht hv
  obtain ⟨h, ho⟩ := ho
  have hshort := Scanner.length_skip_le (blanks ++ ['[']) s
  have hu := Scanner.length_skip_le (blanks ++ [',']) u
  have hw := Scanner.length_operator_lt hop
  refine ⟨by omega, ?_⟩
  rw [expression, ho, Draft.bind_of_ok rfl]
  dsimp only
  split
  · rename_i hnone
    rw [hop] at hnone
    cases hnone
  · rename_i spelling' w' hsome
    rw [hop] at hsome
    cases hsome
    split
    · rename_i hnone
      rw [hspelling] at hnone
      cases hnone
    · rename_i op' hsome
      rw [hspelling] at hsome
      cases hsome
      rw [Draft.bind_of_ok rfl]
      rfl

end

/-- An expression starts with an operand. -/
theorem operand_of_expression {ctx : Context} {first : Bool} {s t : Scanner}
    (ht : s.skip (blanks ++ ['[']) = t) (h : ∃ r, (ctx.expression first s).outcome = .ok r) :
    ∃ r, (ctx.operand first t).outcome = .ok r := by
  subst ht
  obtain ⟨r, hr⟩ := h
  have hok := congrArg (Draft.mk (ctx.expression first s).items) hr
  rw [expression] at hok
  obtain ⟨q, is, _, ho, _, _⟩ := Draft.of_bind_eq_ok hok
  exact ⟨q, congrArg Draft.outcome ho⟩

end Context

namespace Structured

/-! ## Words as operands -/

/-- An ordinary character is in no set of characters that are not. -/
theorem contains_of_isOrdinary {c : Char} (hc : isOrdinary c = true) {stop : List Char}
    (hstop : stop.all (fun d => !isOrdinary d) = true) : stop.contains c = false :=
  not_contains_of_all hstop hc

theorem IsWord.word? {w : List Char} (hw : IsWord w) {stop cs : List Char} {o : Nat}
    (hstop : stop.all (fun d => !isOrdinary d) = true)
    (hcs : ∀ c ∈ cs.head?, stop.contains c = true) :
    Scanner.word? stop ⟨o, w ++ cs⟩ = some (w, ⟨o + Text.utf8Length w, cs⟩) :=
  Scanner.word?_append hw.1 (fun c hc => contains_of_isOrdinary (hw.2 c hc) hstop) hcs

theorem IsWord.head_contains {w : List Char} (hw : IsWord w) {set cs : List Char}
    (hset : set.all (fun d => !isOrdinary d) = true) :
    ∀ c ∈ (w ++ cs).head?, set.contains c = false := by
  obtain ⟨hne, hw⟩ := hw
  cases w with
  | nil => exact absurd rfl hne
  | cons c w =>
    intro d hd
    obtain rfl := Option.some.inj hd
    exact contains_of_isOrdinary (hw c (by simp)) hset

/-! ## Known variables -/

/-- The name stands for a variable and fits the stream. -/
def Name.Known (t : Symbols) (x : Name) : Prop :=
  t.get? x.text = some .var ∧ Item.textFits x.text = true

/-- The variable of a term, if it is one, is known. -/
def Term.Known (t : Symbols) : Term → Prop
  | var x => x.Known t
  | number _ | text _ => True

/-- The variables of an expression are known. -/
def Expr.Known (t : Symbols) : Expr → Prop
  | last a => a.Known t
  | more a _ rest => a.Known t ∧ rest.Known t

/-- Compiling a structured script: no name of a variable stands for anything else,
and string literals may have up to 249 bytes. -/
structure Plain (ctx : Context) : Prop where
  symbols : ∀ x : Name, ∀ s, ctx.symbols.get? x.text = some s → s = .var
  maxString : ctx.maxString = 250

/-! ## Operands -/

theorem Name.not_isDigits (x : Name) : Text.isDigits x.chars = false := by
  have hfirst : x.first.isDigit = false := by
    rw [Bool.eq_false_iff]
    intro hdigit
    have hbounds := toNat_of_isDigit hdigit
    have hletter := x.letter
    simp only [isLetter, Bool.or_eq_true, Bool.and_eq_true, decide_eq_true_eq] at hletter
    rcases hletter with halpha | ⟨hhigh, _⟩
    · have := toNat_of_isAlpha halpha
      omega
    · omega
  simp [Text.isDigits, Name.chars, hfirst]

theorem textFits_of_short (q : Quoted) : Item.textFits q.text = true := by
  have hsize : q.text.utf8ByteSize = Text.utf8Length q.chars := by
    rw [← Text.utf8Length_toList, Quoted.text, String.toList_ofList]
  have hshort := q.short
  simp only [Item.textFits, hsize, decide_eq_true_eq]
  omega

theorem Digits.readInt64? (d : Digits) : Text.readInt64? d.chars = some d.value := by
  have hdigits := d.digits
  have hsigned : Text.readInt? d.chars = some (Nat.ofDigitChars 10 d.chars 0 : Int) := by
    rw [Text.readInt?, Text.readSigned?_of_isDigits hdigits, Text.readNat?, if_pos hdigits]
    rfl
  have hmin : Int64.minValue.toInt = -9223372036854775808 := by decide
  have hmax : Int64.maxValue.toInt = 9223372036854775807 := by decide
  have hbound := d.bounded
  rw [Text.readInt64?, hsigned, Option.bind_some, if_pos (by rw [hmin, hmax]; omega)]
  rfl

/-- What may follow an operand. -/
def Follows (cs : List Char) : Prop :=
  ∀ c ∈ cs.head?, c = ' '

theorem follows_nil : Follows [] := by
  simp [Follows]

theorem follows_blank (cs : List Char) : Follows (' ' :: cs) := by
  simp [Follows]

theorem Follows.contains {cs : List Char} (h : Follows cs) {stop : List Char}
    (hstop : stop.contains ' ' = true) : ∀ c ∈ cs.head?, stop.contains c = true := by
  intro c hc
  rw [h c hc]
  exact hstop

/-- A string that is shorter than the limit, up to its closing quote. -/
theorem literal_append {ctx : Context} {w : List Char} (hw : ∀ c ∈ w, c ≠ '"')
    (hshort : Text.utf8Length w < ctx.maxString) (hfits : Item.textFits (String.ofList w) = true)
    (cs : List Char) (o : Nat) : ∃ o' h, ctx.literal ⟨o, '"' :: (w ++ '"' :: cs)⟩ =
      ⟨[.str (String.ofList w)], .ok (.found ⟨o', cs⟩ h)⟩ := by
  obtain ⟨o', hd⟩ := @Scanner.delimited?_append '"' w cs o hw
  refine ⟨o', Scanner.length_delimited_lt hd, ?_⟩
  unfold Context.literal
  split
  · rename_i hnone
    rw [hd] at hnone
    cases hnone
  · rename_i text t hsome
    rw [hd] at hsome
    cases hsome
    have hput : (Draft.put (.str (String.ofList w))).outcome = .ok () := by
      simp only [Draft.put, Item.check, hfits, if_true]
    rw [if_neg (by omega), Draft.bind_of_ok hput]
    rfl

/-- A string literal as an operand. -/
theorem operand_literal {ctx : Context} (first : Bool) {w : List Char} (hw : ∀ c ∈ w, c ≠ '"')
    (hshort : Text.utf8Length w < ctx.maxString) (hfits : Item.textFits (String.ofList w) = true)
    (cs : List Char) (o : Nat) : ∃ o' h, ctx.operand first ⟨o, '"' :: (w ++ '"' :: cs)⟩ =
      ⟨(Operand.str (String.ofList w)).items, .ok (.found ⟨o', cs⟩ h)⟩ := by
  obtain ⟨o', h, hop⟩ := literal_append hw hshort hfits cs o
  refine ⟨o', h, ?_⟩
  rw [Context.operand]
  simp only [Operand.items]
  exact hop

theorem operand_quoted {ctx : Context} (hmax : 250 ≤ ctx.maxString) (first : Bool) (q : Quoted)
    (cs : List Char) (o : Nat) : ∃ o' h, ctx.operand first ⟨o, '"' :: (q.chars ++ '"' :: cs)⟩ =
      ⟨(Operand.str q.text).items, .ok (.found ⟨o', cs⟩ h)⟩ :=
  operand_literal first (fun c hc => (q.inside c hc).1) (Nat.lt_of_lt_of_le q.short hmax)
    (textFits_of_short q) cs o

/-- An operand up to the first character that ends it: a number, or what its symbol
says. -/
theorem operand_append (ctx : Context) (first : Bool) {w cs : List Char} (hne : w ≠ [])
    (hw : ∀ c ∈ w, operandStop.contains c = false)
    (hhead : ∀ c ∈ (w ++ cs).head?, ['"', '#'].contains c = false)
    (hcs : ∀ c ∈ cs.head?, operandStop.contains c = true) (o : Nat) :
    ∃ o' h, ctx.operand first ⟨o, w ++ cs⟩ =
      if Text.isDigits w then (do
        Context.digits w o o'
        return .found ⟨o', cs⟩ h)
      else
        match ctx.symbols.get? (String.ofList w) with
        | some .var => (do
          Draft.put (.var (String.ofList w))
          return .found ⟨o', cs⟩ h)
        | some (.constant c) => (do
          c.draft
          return .found ⟨o', cs⟩ h)
        | some (.function code params) => (do
          Draft.put .call
          (fun u => .found u.1 (Nat.lt_of_le_of_lt u.2 h)) <$> ctx.call code params ⟨o', cs⟩)
        | some (.command _) =>
          .fail ((Error.of (.commandInExpression (String.ofList w))).inColumns o o')
        | none => .fail ((Error.of (.undefined (String.ofList w))).inColumns o o') := by
  have hword : Scanner.word? operandStop ⟨o, w ++ cs⟩ = _ :=
    Scanner.word?_append (o := o) hne hw hcs
  refine ⟨_, Scanner.length_word_lt hword hne, ?_⟩
  rw [Context.operand]
  split
  · rename_i hq
    rw [show (Scanner.mk o (w ++ cs)).rest = w ++ cs from rfl] at hq
    rw [hq] at hhead
    exact absurd (hhead '"' rfl) (by decide)
  · rename_i hq
    rw [show (Scanner.mk o (w ++ cs)).rest = w ++ cs from rfl] at hq
    rw [hq] at hhead
    exact absurd (hhead '#' rfl) (by decide)
  · dsimp only
    split
    · rename_i hnone
      rw [hword] at hnone
      cases hnone
    · rename_i word t hsome
      rw [hword] at hsome
      cases hsome
      exact dif_neg hne

/-- An operand that is a word. -/
theorem operand_word (ctx : Context) (first : Bool) {w cs : List Char} (hw : IsWord w)
    (hcs : Follows cs) (o : Nat) :
    ∃ o' h, ctx.operand first ⟨o, w ++ cs⟩ =
      if Text.isDigits w then (do
        Context.digits w o o'
        return .found ⟨o', cs⟩ h)
      else
        match ctx.symbols.get? (String.ofList w) with
        | some .var => (do
          Draft.put (.var (String.ofList w))
          return .found ⟨o', cs⟩ h)
        | some (.constant c) => (do
          c.draft
          return .found ⟨o', cs⟩ h)
        | some (.function code params) => (do
          Draft.put .call
          (fun u => .found u.1 (Nat.lt_of_le_of_lt u.2 h)) <$> ctx.call code params ⟨o', cs⟩)
        | some (.command _) =>
          .fail ((Error.of (.commandInExpression (String.ofList w))).inColumns o o')
        | none => .fail ((Error.of (.undefined (String.ofList w))).inColumns o o') :=
  operand_append ctx first hw.1 (fun c hc => contains_of_isOrdinary (hw.2 c hc) (by decide))
    (hw.head_contains (by decide)) (hcs.contains (by decide)) o

section
variable {ctx : Context} (first : Bool) {cs : List Char}
  (hcs : ∀ c ∈ cs.head?, operandStop.contains c = true) (o : Nat)
include hcs

/-- A number as an operand. -/
theorem operand_number (d : Digits) :
    ∃ o' h, ctx.operand first ⟨o, d.chars ++ cs⟩ =
      ⟨(Operand.num d.value).items, .ok (.found ⟨o', cs⟩ h)⟩ := by
  obtain ⟨o', h, hop⟩ := operand_append ctx first d.isWord.1
    (fun c hc => contains_of_isOrdinary (d.isWord.2 c hc) (by decide))
    (d.isWord.head_contains (by decide)) hcs o
  refine ⟨o', h, hop.trans ?_⟩
  have hput : Context.digits d.chars o o' = Draft.put (.num d.value) := by
    rw [Context.digits, d.readInt64?]
  rw [if_pos d.digits, hput, Draft.bind_of_ok rfl]
  simp only [Operand.items]
  rfl

/-- The name of a variable as an operand. -/
theorem operand_variable {w : List Char} (hne : w ≠ [])
    (hw : ∀ c ∈ w, operandStop.contains c = false)
    (hhead : ∀ c ∈ (w ++ cs).head?, ['"', '#'].contains c = false)
    (hdigits : Text.isDigits w = false) (hvar : ctx.symbols.get? (String.ofList w) = some .var)
    (hfits : Item.textFits (String.ofList w) = true) :
    ∃ o' h, ctx.operand first ⟨o, w ++ cs⟩ =
      ⟨(Operand.var (String.ofList w)).items, .ok (.found ⟨o', cs⟩ h)⟩ := by
  obtain ⟨o', h, hop⟩ := operand_append ctx first hne hw hhead hcs o
  refine ⟨o', h, hop.trans ?_⟩
  have hput : (Draft.put (.var (String.ofList w))).outcome = .ok () := by
    simp only [Draft.put, Item.check, hfits, if_true]
  rw [if_neg (by simp [hdigits]), hvar]
  refine (Draft.bind_of_ok hput _).trans ?_
  simp only [Operand.items]
  rfl

theorem operand_name (x : Name) (hvar : ctx.symbols.get? x.text = some .var)
    (hfits : Item.textFits x.text = true) :
    ∃ o' h, ctx.operand first ⟨o, x.chars ++ cs⟩ =
      ⟨(Operand.var x.text).items, .ok (.found ⟨o', cs⟩ h)⟩ :=
  operand_variable first hcs o x.isWord.1
    (fun c hc => contains_of_isOrdinary (x.isWord.2 c hc) (by decide))
    (x.isWord.head_contains (by decide)) x.not_isDigits hvar hfits

end

/-- The operand of a term is written when its variable is known. -/
theorem operand_of_known {ctx : Context} (hctx : Plain ctx) (first : Bool) {t : Term}
    (ht : t.Known ctx.symbols) {cs : List Char} (hcs : Follows cs) (o : Nat) :
    ∃ o' h, ctx.operand first ⟨o, t.chars ++ cs⟩ =
      ⟨t.operand.items, .ok (.found ⟨o', cs⟩ h)⟩ := by
  cases t with
  | number d => exact operand_number first (hcs.contains (by decide)) o d
  | var x => exact operand_name first (hcs.contains (by decide)) o x ht.1 ht.2
  | text q =>
    have hchars : Term.chars (.text q) ++ cs = '"' :: (q.chars ++ '"' :: cs) := by
      simp [Term.chars]
    rw [hchars]
    exact operand_quoted (Nat.le_of_eq hctx.maxString.symm) first q cs o

/-- The operand of a term is written only when its variable is known. -/
theorem known_of_operand {ctx : Context} (hctx : Plain ctx) {first : Bool} {t : Term}
    {cs : List Char} (hcs : Follows cs) {o : Nat}
    (h : ∃ r, (ctx.operand first ⟨o, t.chars ++ cs⟩).outcome = .ok r) : t.Known ctx.symbols := by
  obtain ⟨r, hr⟩ := h
  cases t with
  | number d => trivial
  | text q => trivial
  | var x =>
    obtain ⟨o', hlt, hop⟩ := operand_word ctx first x.isWord hcs o
    have hok : ctx.operand first ⟨o, x.chars ++ cs⟩ =
        ⟨(ctx.operand first ⟨o, x.chars ++ cs⟩).items, .ok r⟩ := congrArg (Draft.mk _) hr
    have hop' := hop.symm.trans hok
    rw [if_neg (by simp [x.not_isDigits])] at hop'
    cases hs : ctx.symbols.get? (String.ofList x.chars) with
    | none =>
      rw [hs] at hop'
      exact absurd hop' Draft.fail_ne_ok
    | some s =>
      obtain rfl := hctx.symbols x s hs
      rw [hs] at hop'
      obtain ⟨_, hput, _, _⟩ := Draft.of_put_bind_eq_ok hop'
      exact ⟨hs, Item.textFits_of_check_var hput⟩

/-! ## Expressions -/

theorem Sign.chars (sign : Sign) : sign.1.1 ≠ [] ∧
    ∀ c ∈ sign.1.1, Operator.chars.contains c = true := by
  have hall : Operator.spellings.all
      (fun p => !p.1.isEmpty && p.1.all Operator.chars.contains) = true := by decide
  have hsign := List.all_eq_true.1 hall sign.1 sign.2
  rw [Bool.and_eq_true, Bool.not_eq_true', List.isEmpty_eq_false_iff, List.all_eq_true] at hsign
  exact hsign

theorem Sign.ofSpelling? (sign : Sign) : Operator.ofSpelling? sign.1.1 = some sign.1.2 := by
  have hall : ∀ p ∈ Operator.spellings, Operator.ofSpelling? p.1 = some p.2 := by decide
  exact hall sign.1 sign.2

/-- Behind a sign stands a blank. -/
theorem Sign.operator? (sign : Sign) (cs : List Char) (o : Nat) :
    Scanner.operator? Operator.chars ⟨o, sign.1.1 ++ ' ' :: cs⟩ =
      some (sign.1.1, ⟨o + Text.utf8Length sign.1.1, ' ' :: cs⟩) := by
  refine Scanner.operator?_append sign.chars.1 sign.chars.2 ?_
  intro c hc
  obtain rfl := Option.some.inj hc
  decide

theorem Sign.head_contains (sign : Sign) (cs : List Char) :
    ∀ c ∈ (sign.1.1 ++ cs).head?, (blanks ++ [',']).contains c = false := by
  have hall : (blanks ++ [',']).all (fun d => !Operator.chars.contains d) = true := by decide
  obtain ⟨hne, hchars⟩ := sign.chars
  intro c hc
  cases hs : sign.1.1 with
  | nil => exact absurd hs hne
  | cons d ds =>
    rw [hs] at hc hchars
    obtain rfl := Option.some.inj hc
    exact not_contains_of_all hall (hchars d List.mem_cons_self)

theorem Term.head_contains (t : Term) (cs : List Char) :
    ∀ c ∈ (t.chars ++ cs).head?, (blanks ++ ['[']).contains c = false := by
  cases t with
  | number d => exact d.isWord.head_contains (by decide)
  | var x => exact x.isWord.head_contains (by decide)
  | text q =>
    intro c hc
    obtain rfl := Option.some.inj hc
    decide

theorem Term.skip_blank (t : Term) (cs : List Char) (o : Nat) :
    Scanner.skip (blanks ++ ['[']) ⟨o, ' ' :: (t.chars ++ cs)⟩ =
      ⟨o + Text.utf8Length [' '], t.chars ++ cs⟩ :=
  Scanner.skip_cons (by decide) (t.head_contains cs)

theorem Sign.skip_blank (sign : Sign) (cs : List Char) (o : Nat) :
    Scanner.skip (blanks ++ [',']) ⟨o, ' ' :: (sign.1.1 ++ cs)⟩ =
      ⟨o + Text.utf8Length [' '], sign.1.1 ++ cs⟩ :=
  Scanner.skip_cons (by decide) (sign.head_contains cs)

/-- An expression of known variables is written, and the line ends behind it. -/
theorem expression_of_known {ctx : Context} (hctx : Plain ctx) {e : Expr}
    (he : e.Known ctx.symbols) (first : Bool) (o : Nat) :
    ∃ o' h, ctx.expression first ⟨o, ' ' :: e.chars⟩ =
      ⟨e.tree.items, .ok (.found ⟨o', []⟩ h)⟩ := by
  induction e generalizing first o with
  | last t =>
    have hskip := t.skip_blank [] o
    obtain ⟨o', ho⟩ := operand_of_known hctx first he follows_nil
      (o + Text.utf8Length [' '])
    rw [List.append_nil] at hskip ho
    obtain ⟨h, hexpr⟩ := Context.expression_of_operator?_none hskip ho (v := ⟨o', []⟩) rfl rfl
    exact ⟨o', h, hexpr⟩
  | more t sign rest ih =>
    obtain ⟨ht, hrest⟩ := he
    obtain ⟨o₁, ho⟩ := operand_of_known hctx first ht
      (follows_blank (sign.1.1 ++ ' ' :: rest.chars))
      (o + Text.utf8Length [' '])
    obtain ⟨h, hexpr⟩ := Context.expression_of_operator?_some (t.skip_blank _ o) ho
      (sign.skip_blank _ o₁) (sign.operator? _ _) sign.ofSpelling?
    obtain ⟨o₂, h₂, htail⟩ := ih hrest false (o₁ + Text.utf8Length [' '] + Text.utf8Length sign.1.1)
    refine ⟨o₂, Nat.lt_of_lt_of_le h₂ h, ?_⟩
    refine hexpr.trans ?_
    rw [htail]
    rfl

/-- An expression is written only when its variables are known. -/
theorem known_of_expression {ctx : Context} (hctx : Plain ctx) {e : Expr} {first : Bool} {o : Nat}
    (h : ∃ r, (ctx.expression first ⟨o, ' ' :: e.chars⟩).outcome = .ok r) :
    e.Known ctx.symbols := by
  induction e generalizing first o with
  | last t =>
    have hskip := t.skip_blank [] o
    rw [List.append_nil] at hskip
    have ho := Context.operand_of_expression hskip h
    rw [← List.append_nil t.chars] at ho
    exact known_of_operand hctx follows_nil ho
  | more t sign rest ih =>
    have ho := Context.operand_of_expression (t.skip_blank _ o) h
    have ht := known_of_operand hctx (follows_blank _) ho
    refine ⟨ht, ?_⟩
    obtain ⟨o₁, ho⟩ := operand_of_known hctx first ht
      (follows_blank (sign.1.1 ++ ' ' :: rest.chars))
      (o + Text.utf8Length [' '])
    obtain ⟨hle, hexpr⟩ := Context.expression_of_operator?_some (t.skip_blank _ o) ho
      (sign.skip_blank _ o₁) (sign.operator? _ _) sign.ofSpelling?
    obtain ⟨r, hr⟩ := h
    have houtcome := (congrArg Draft.outcome hexpr).symm.trans hr
    refine @ih false (o₁ + Text.utf8Length [' '] + Text.utf8Length sign.1.1) ?_
    dsimp only at houtcome
    generalize (ctx.expression false _).outcome = outcome at houtcome ⊢
    cases outcome with
    | error e => cases houtcome
    | ok q => exact ⟨q, rfl⟩

/-- An expression with the end of the line behind it is written exactly when its
variables are known. -/
theorem value_bind_eq_ok_iff {ctx : Context} (hctx : Plain ctx) (e : Expr) (o : Nat)
    {f : Scanner.Optional ⟨o, ' ' :: e.chars⟩ → Draft Unit}
    (hf : ∀ t h, f (.found t h) = Draft.ofExcept t.expectEnd) {items : List Item} :
    ctx.value ⟨o, ' ' :: e.chars⟩ >>= f = ⟨items, .ok ()⟩ ↔
      e.Known ctx.symbols ∧ items = e.tree.items := by
  have hknown : e.Known ctx.symbols →
      ctx.value ⟨o, ' ' :: e.chars⟩ >>= f = ⟨e.tree.items, .ok ()⟩ := by
    intro he
    obtain ⟨o', hlt, hexpr⟩ := expression_of_known hctx he true o
    rw [Context.value, hexpr, Draft.bind_of_ok rfl, hf]
    exact congrArg (Draft.mk · _) (List.append_nil _)
  constructor
  · intro h
    obtain ⟨r, is, js, hr, _⟩ := Draft.of_bind_eq_ok h
    have he : e.Known ctx.symbols := known_of_expression hctx ⟨r, congrArg Draft.outcome hr⟩
    exact ⟨he, (congrArg Draft.items ((hknown he).symm.trans h)).symm⟩
  · rintro ⟨he, rfl⟩
    exact hknown he

/-- The test in front of a jump. -/
theorem lastValue_eq_ok_iff {ctx : Context} (hctx : Plain ctx) (opcode : Opcode) (missing : Cause)
    (e : Expr) (o : Nat) {items : List Item} :
    ctx.lastValue opcode missing ⟨o, ' ' :: e.chars⟩ = ⟨items, .ok ()⟩ ↔
      e.Known ctx.symbols ∧ items = .code opcode :: e.tree.items := by
  rw [Context.lastValue, Draft.put_bind_eq_ok_iff]
  constructor
  · rintro ⟨_, js, hvalue, rfl⟩
    obtain ⟨he, rfl⟩ := (value_bind_eq_ok_iff hctx e o fun _ _ => rfl).1 hvalue
    exact ⟨he, rfl⟩
  · rintro ⟨he, rfl⟩
    exact ⟨rfl, _, (value_bind_eq_ok_iff hctx e o fun _ _ => rfl).2 ⟨he, rfl⟩, rfl⟩

/-! ## Assignments -/

/-- The variables of an assigned expression are known. -/
def Change.Known (t : Symbols) : Change → Prop
  | store _ e => e.Known t
  | increment | decrement => True

/-- The characters of assigning operators. -/
def assigning : List Char := ['=', '+', '-', '*', '/', '%']

theorem operator?_spelling (how : Assignment) (cs : List Char) (o : Nat) :
    Scanner.operator? assigning ⟨o, spelling how ++ ' ' :: cs⟩ =
      some (spelling how, ⟨o + Text.utf8Length (spelling how), ' ' :: cs⟩) := by
  refine Scanner.operator?_append ?_ ?_ ?_
  · cases how <;> decide
  · cases how <;> exact List.all_eq_true.1 (by decide)
  · intro c hc
    obtain rfl := Option.some.inj hc
    decide

theorem assignmentOpcode?_spelling (how : Assignment) :
    Context.assignmentOpcode? (spelling how) = some how.opcode := by
  cases how <;> rfl

theorem skip_assigning {c : Char} (hc : assigning.contains c = true) (cs : List Char) (o : Nat) :
    Scanner.skip blanks ⟨o, ' ' :: c :: cs⟩ = ⟨o + Text.utf8Length [' '], c :: cs⟩ := by
  refine Scanner.skip_cons (by decide) fun d hd => ?_
  have hall : blanks.all (fun d => !assigning.contains d) = true := by decide
  obtain rfl := Option.some.inj hd
  exact not_contains_of_all hall hc

/-- A step up or down. -/
theorem assignment_step_eq_ok_iff {ctx : Context} {name : String} {c : Char} {opcode : Opcode}
    (hstep : opcode = .inc ∨ opcode = .dec)
    (hopcode : Context.assignmentOpcode? [c, c] = some opcode)
    (hc : assigning.contains c = true) (o : Nat) {items : List Item} :
    ctx.assignment name ⟨o, [' ', c, c]⟩ = ⟨items, .ok ()⟩ ↔
      Item.textFits name = true ∧ items = [.code opcode, .var name] := by
  have hop := @Scanner.operator?_append assigning [c, c] [] (o + Text.utf8Length [' ']) (by simp)
    (by simpa using hc) (by simp)
  rw [List.append_nil] at hop
  unfold Context.assignment
  dsimp only
  rw [skip_assigning hc, show ['=', '+', '-', '*', '/', '%'] = assigning from rfl, hop]
  simp only [hopcode, if_pos hstep, Draft.put_bind_eq_ok_iff, Item.check_var_iff]
  constructor
  · rintro ⟨_, js, ⟨hfits, ks, hend, rfl⟩, rfl⟩
    obtain ⟨rfl, _⟩ := Draft.of_ofExcept_eq_ok hend
    exact ⟨hfits, rfl⟩
  · rintro ⟨hfits, rfl⟩
    exact ⟨rfl, _, ⟨hfits, [], rfl, rfl⟩, rfl⟩

/-- An assignment is written exactly when its variables are known and its name
fits. -/
theorem assignment_eq_ok_iff {ctx : Context} (hctx : Plain ctx) (x : Name) (change : Change)
    (o : Nat) {items : List Item} :
    ctx.assignment x.text ⟨o, ' ' :: change.chars⟩ = ⟨items, .ok ()⟩ ↔
      Item.textFits x.text = true ∧ change.Known ctx.symbols ∧
        items = (change.instruction x).items := by
  cases change with
  | store how e =>
    have hskip : Scanner.skip blanks ⟨o, ' ' :: Change.chars (.store how e)⟩ =
        ⟨o + Text.utf8Length [' '], spelling how ++ ' ' :: e.chars⟩ := by
      cases how <;> exact skip_assigning (by decide) _ o
    have hop := operator?_spelling how e.chars (o + Text.utf8Length [' '])
    have hstep : ¬ (how.opcode = .inc ∨ how.opcode = .dec) := by cases how <;> decide
    unfold Context.assignment
    dsimp only
    rw [hskip, show ['=', '+', '-', '*', '/', '%'] = assigning from rfl, hop]
    simp only [assignmentOpcode?_spelling, if_neg hstep,
      Draft.put_bind_eq_ok_iff, Item.check_var_iff]
    constructor
    · rintro ⟨_, js, ⟨hfits, ks, hvalue, rfl⟩, rfl⟩
      obtain ⟨he, rfl⟩ := (value_bind_eq_ok_iff hctx e _ fun _ _ => rfl).1 hvalue
      exact ⟨hfits, he, rfl⟩
    · rintro ⟨hfits, he, rfl⟩
      exact ⟨rfl, _, ⟨hfits, _, (value_bind_eq_ok_iff hctx e _ fun _ _ => rfl).2 ⟨he, rfl⟩, rfl⟩,
        rfl⟩
  | increment =>
    refine (assignment_step_eq_ok_iff (.inl rfl) rfl (by decide) o).trans ?_
    exact ⟨fun h => ⟨h.1, trivial, h.2⟩, fun h => ⟨h.1, h.2.2⟩⟩
  | decrement =>
    refine (assignment_step_eq_ok_iff (.inr rfl) rfl (by decide) o).trans ?_
    exact ⟨fun h => ⟨h.1, trivial, h.2⟩, fun h => ⟨h.1, h.2.2⟩⟩

/-! ## Choices -/

/-- The two instructions that open a choice. -/
theorem choice_eq_ok_iff {ctx : Context} (hctx : Plain ctx) (e : Expr) (o : Nat)
    {items : List Item} :
    ctx.choice ⟨o, ' ' :: e.chars⟩ = ⟨items, .ok ()⟩ ↔ e.Known ctx.symbols ∧
      items = [Instruction.push caseName, .assign .mov caseName e.tree].flatMap
        Instruction.items := by
  have hitems : [Instruction.push caseName, .assign .mov caseName e.tree].flatMap
      Instruction.items = .code .push :: .var caseName :: .code .mov :: .var caseName ::
        e.tree.items := by
    simp [Instruction.items, Assignment.opcode]
  rw [hitems, Context.choice]
  simp only [Draft.put_bind_eq_ok_iff]
  constructor
  · rintro ⟨_, _, ⟨_, _, ⟨_, _, ⟨_, _, hvalue, rfl⟩, rfl⟩, rfl⟩, rfl⟩
    obtain ⟨he, rfl⟩ := (value_bind_eq_ok_iff hctx e _ fun _ _ => rfl).1 hvalue
    exact ⟨he, rfl⟩
  · rintro ⟨he, rfl⟩
    exact ⟨rfl, _, ⟨rfl, _, ⟨rfl, _, ⟨rfl, _,
      (value_bind_eq_ok_iff hctx e _ fun _ _ => rfl).2 ⟨he, rfl⟩, rfl⟩, rfl⟩, rfl⟩, rfl⟩

end Structured

end ScriptMachine
