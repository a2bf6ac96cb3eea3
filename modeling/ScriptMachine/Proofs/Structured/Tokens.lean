/-
  ScriptMachine.Proofs.Structured.Tokens

  Flat expressions keep their tokens.  Operands and signs may stand next to each other
  or have blanks and tabs between them; the readers of a line find the same tokens, and
  so the line `x = ...` stores what reducing the operands gives (`flat_line_runs`).
  A name among the operands is that of a variable or of a constant.
-/

import ScriptMachine.Proofs.Capacity
import ScriptMachine.Proofs.Grouped.Evaluation

namespace ScriptMachine

/-- The constant as an operand. -/
def Constant.operand : Constant → Operand
  | number n => .num n
  | text s => .str s

/-- The constant as a value. -/
def Constant.value : Constant → Value
  | number n => .int n
  | text s => .str s

/-- The text of the constant, if it has one, fits the stream. -/
def Constant.Fits : Constant → Prop
  | number _ => True
  | text s => Item.textFits s = true

theorem Constant.draft_of_fits {k : Constant} (h : k.Fits) :
    k.draft = ⟨k.operand.items, .ok ()⟩ := by
  cases k with
  | number n =>
    simp only [operand, Operand.items]
    rfl
  | text s =>
    have hfits : Item.textFits s = true := h
    simp only [draft, Draft.put, Item.check, hfits, if_true, operand, Operand.items]

namespace Structured

open Compile

/-! ## Tokens with gaps -/

/-- Blanks and tabs between two tokens, possibly none. -/
abbrev Gap := { g : List Char // ∀ c ∈ g, blanks.contains c = true }

/-- Operands with signs between them, and gaps around the signs. -/
inductive Tokens where
  | last (t : Term)
  | more (t : Term) (left : Gap) (sign : Sign) (right : Gap) (rest : Tokens)

/-- The line that assigns the expression to the variable. -/
def flatLine (x : Name) (left right : Gap) (text : List Char) : List Char :=
  x.chars ++ (left.1 ++ '=' :: (right.1 ++ text))

namespace Tokens

/-- Text of an expression. -/
def chars : Tokens → List Char
  | last t => t.chars
  | more t left sign right rest => t.chars ++ (left.1 ++ (sign.1.1 ++ (right.1 ++ rest.chars)))

/-- Operators of an expression, in order. -/
def operators : Tokens → List Operator
  | last _ => []
  | more _ _ sign _ rest => sign.1.2 :: rest.operators

end Tokens

section
variable (symbols : Symbols)

namespace Term

/-- The operand that a term is written as: a name of a constant stands for the constant. -/
def resolve : Term → Operand
  | number d => .num d.value
  | text q => .str q.text
  | var x =>
    match symbols.get? x.text with
    | some (.constant k) => k.operand
    | _ => .var x.text

/-- Value of a term where its variables are read from a store. -/
def given (s : Store) : Term → Value
  | number d => .int d.value
  | text q => .str q.text
  | var x =>
    match symbols.get? x.text with
    | some (.constant k) => k.value
    | _ => s.fetch x.text

/-- A name among the operands is that of a variable, and fits the stream, or that of a
constant, and its text fits the stream. -/
def Usable : Term → Prop
  | number _ | text _ => True
  | var x => x.Known symbols ∨ ∃ k, symbols.get? x.text = some (.constant k) ∧ k.Fits

end Term

namespace Tokens

/-- The instruction tree of an expression. -/
def tree : Tokens → Expression
  | last t => .last (t.resolve symbols)
  | more t _ sign _ rest => .more (t.resolve symbols) sign.1.2 rest.tree

/-- Values of the operands of an expression, in order. -/
def operands (s : Store) : Tokens → List Value
  | last t => [t.given symbols s]
  | more t _ _ _ rest => t.given symbols s :: rest.operands s

/-- All names among the operands can be used. -/
def Usable : Tokens → Prop
  | last t => t.Usable symbols
  | more t _ _ _ rest => t.Usable symbols ∧ rest.Usable

end Tokens

end

/-! ## First characters -/

/-- What an expression starts with, behind a gap, is in no set of other characters. -/
theorem Tokens.head_contains (gap : Gap) (e : Tokens) {set : List Char}
    (hset : set.all (fun d => !isOrdinary d && d != '"' && !blanks.contains d) = true) :
    ∀ c ∈ (gap.1 ++ e.chars).head?, set.contains c = false := by
  have hterm : ∀ (t : Term) (cs : List Char), ∀ c ∈ (t.chars ++ cs).head?,
      isOrdinary c = true ∨ c = '"' := by
    intro t cs c hc
    have hword : ∀ w, IsWord w → c ∈ (w ++ cs).head? → isOrdinary c = true := by
      intro w hw hc
      cases hw' : w with
      | nil => exact absurd hw' hw.1
      | cons d ds =>
        rw [hw'] at hc
        obtain rfl := Option.some.inj hc
        exact hw.2 d (by simp [hw'])
    cases t with
    | number d => exact .inl (hword _ d.isWord hc)
    | var x => exact .inl (hword _ x.isWord hc)
    | text q => exact .inr (Option.some.inj hc).symm
  have hstart : ∀ c ∈ (gap.1 ++ e.chars).head?,
      isOrdinary c = true ∨ c = '"' ∨ blanks.contains c = true := by
    intro c hc
    obtain ⟨gap, hgap⟩ := gap
    cases gap with
    | nil =>
      cases e with
      | last t =>
        rw [List.nil_append, chars, ← List.append_nil t.chars] at hc
        exact (hterm t [] c hc).imp_right .inl
      | more t left sign right rest => exact (hterm t _ c hc).imp_right .inl
    | cons d ds =>
      obtain rfl := Option.some.inj hc
      exact .inr (.inr (hgap d List.mem_cons_self))
  intro c hc
  rw [Bool.eq_false_iff]
  intro hmem
  have hnone := all_of_contains hset hmem
  simp only [Bool.and_eq_true, Bool.not_eq_true', bne_iff_ne] at hnone
  rcases hstart c hc with hord | hquote | hblank
  · rw [hord] at hnone
    cases hnone.1.1
  · exact hnone.1.2 hquote
  · rw [hblank] at hnone
    cases hnone.2

/-- Characters of a set, and a character of a larger set behind them. -/
theorem head_append_contains {small large g cs : List Char}
    (hg : ∀ c ∈ g, small.contains c = true) (hset : small.all large.contains = true)
    (hcs : ∀ c ∈ cs.head?, large.contains c = true) :
    ∀ c ∈ (g ++ cs).head?, large.contains c = true := by
  cases g with
  | nil => exact hcs
  | cons d ds =>
    intro c hc
    obtain rfl := Option.some.inj hc
    exact all_of_contains hset (hg d List.mem_cons_self)

/-- A gap and a character of the set behind it. -/
theorem Gap.head_contains (gap : Gap) {cs set : List Char}
    (hset : blanks.all set.contains = true) (hcs : ∀ c ∈ cs.head?, set.contains c = true) :
    ∀ c ∈ (gap.1 ++ cs).head?, set.contains c = true :=
  head_append_contains gap.2 hset hcs

theorem Sign.head_operandStop (sign : Sign) (cs : List Char) :
    ∀ c ∈ (sign.1.1 ++ cs).head?, operandStop.contains c = true := by
  obtain ⟨hne, hchars⟩ := sign.chars
  intro c hc
  cases hs : sign.1.1 with
  | nil => exact absurd hs hne
  | cons d ds =>
    rw [hs] at hc hchars
    obtain rfl := Option.some.inj hc
    have hall : Operator.chars.all operandStop.contains = true := by decide
    exact all_of_contains hall (hchars d List.mem_cons_self)

/-! ## Comments and groups -/

theorem Gap.flat_append (gap : Gap) {cs : List Char} (h : Flat cs) : Flat (gap.1 ++ cs) := by
  have hall : blanks.all isPlain = true := by decide
  exact Flat.plain_append (fun c hc => all_of_contains hall (gap.2 c hc)) h

theorem Tokens.isLine (e : Tokens) : IsLine e.chars := by
  induction e with
  | last t => exact t.isLine
  | more t left sign right rest ih =>
    have hright : Flat (right.1 ++ rest.chars) := right.flat_append ih.1
    have hsign : Flat (sign.1.1 ++ (right.1 ++ rest.chars)) := by
      -- the sign of a division begins no comment: neither `/` nor `*` follows it
      have hhead : ∀ c ∈ (right.1 ++ rest.chars).head?, ['/', '*'].contains c = false :=
        rest.head_contains right (by decide)
      obtain ⟨_, front, last, hfront, _⟩ := ih
      cases hcs : right.1 ++ rest.chars with
      | nil => simp [hfront] at hcs
      | cons c cs =>
        rw [hcs] at hhead hright
        have hc := hhead c rfl
        simp only [List.contains_cons, Bool.or_eq_false_iff, beq_eq_false_iff_ne] at hc
        exact hright.sign_append sign ⟨hc.1, hc.2.1⟩
    have hflat := t.flat_append (left.flat_append hsign)
    rw [chars]
    simp only [← List.append_assoc] at hflat ⊢
    exact ih.append hflat

/-- Nothing of the line is taken for a comment or for a group. -/
theorem isLine_flatLine (x : Name) (left right : Gap) (e : Tokens) :
    IsLine (flatLine x left right e.chars) := by
  have hflat : Flat (flatLine x left right e.chars) :=
    Flat.word_append x.isWord (left.flat_append (.char (by decide) (right.flat_append e.isLine.1)))
  have hassoc : flatLine x left right e.chars =
      (x.chars ++ (left.1 ++ '=' :: right.1)) ++ e.chars := by
    simp [flatLine]
  rw [hassoc] at hflat ⊢
  exact e.isLine.append hflat

/-! ## Reading the tokens back -/

/-- The name of a constant as an operand. -/
theorem operand_constant {ctx : Context} (first : Bool) {w cs : List Char} (hne : w ≠ [])
    (hw : ∀ c ∈ w, operandStop.contains c = false)
    (hhead : ∀ c ∈ (w ++ cs).head?, ['"', '#'].contains c = false)
    (hcs : ∀ c ∈ cs.head?, operandStop.contains c = true)
    (hdigits : Text.isDigits w = false) {k : Constant}
    (hk : ctx.symbols.get? (String.ofList w) = some (.constant k)) (hfits : k.Fits) (o : Nat) :
    ∃ o' h, ctx.operand first ⟨o, w ++ cs⟩ =
      ⟨k.operand.items, .ok (.found ⟨o', cs⟩ h)⟩ := by
  obtain ⟨o', h, hop⟩ := operand_append ctx first hne hw hhead hcs o
  refine ⟨o', h, hop.trans ?_⟩
  rw [if_neg (by simp [hdigits]), hk]
  dsimp only
  rw [Constant.draft_of_fits hfits, Draft.bind_of_ok rfl]
  exact congrArg (Draft.mk · _) (List.append_nil _)

section
variable {ctx : Context} (hmax : 250 ≤ ctx.maxString)
include hmax

/-- An operand ends where a gap or a sign follows. -/
theorem operand_of_usable (first : Bool) {t : Term} (ht : t.Usable ctx.symbols) {cs : List Char}
    (hcs : ∀ c ∈ cs.head?, operandStop.contains c = true) (o : Nat) :
    ∃ o' h, ctx.operand first ⟨o, t.chars ++ cs⟩ =
      ⟨(t.resolve ctx.symbols).items, .ok (.found ⟨o', cs⟩ h)⟩ := by
  cases t with
  | number d => exact operand_number first hcs o d
  | text q =>
    have hchars : Term.chars (.text q) ++ cs = '"' :: (q.chars ++ '"' :: cs) := by
      simp [Term.chars]
    rw [hchars]
    exact operand_quoted hmax first q cs o
  | var x =>
    rcases ht with ⟨hvar, hfits⟩ | ⟨k, hk, hfits⟩
    · simp only [Term.resolve, hvar]
      exact operand_name first hcs o x hvar hfits
    · simp only [Term.resolve, hk]
      exact operand_constant first x.isWord.1
        (fun c hc => contains_of_isOrdinary (x.isWord.2 c hc) (by decide))
        (x.isWord.head_contains (by decide)) hcs x.not_isDigits hk hfits o

/-- The tokens of an expression are found whatever the gaps; the line ends behind it.  By
induction on the tokens. -/
theorem Tokens.expression {e : Tokens} (he : e.Usable ctx.symbols) (gap : Gap) (first : Bool)
    (o : Nat) :
    ∃ o' h, ctx.expression first ⟨o, gap.1 ++ e.chars⟩ =
      ⟨(e.tree ctx.symbols).items, .ok (.found ⟨o', []⟩ h)⟩ := by
  have hskip : ∀ (gap : Gap) (t : Term) (cs : List Char) (o : Nat),
      Scanner.skip (blanks ++ ['[']) ⟨o, gap.1 ++ (t.chars ++ cs)⟩ =
        ⟨o + Text.utf8Length gap.1, t.chars ++ cs⟩ := by
    intro gap t cs o
    have hall : blanks.all (blanks ++ ['[']).contains = true := by decide
    exact Scanner.skip_append (fun c hc => all_of_contains hall (gap.2 c hc)) (t.head_contains cs)
  induction e generalizing gap first o with
  | last t =>
    have ht := hskip gap t [] o
    have hend : ∀ c ∈ ([] : List Char).head?, operandStop.contains c = true := by simp
    obtain ⟨o', ho⟩ := operand_of_usable hmax first he hend (o + Text.utf8Length gap.1)
    rw [List.append_nil] at ht ho
    obtain ⟨h, hexpr⟩ := Context.expression_of_operator?_none ht ho (v := ⟨o', []⟩) rfl rfl
    exact ⟨o', h, hexpr⟩
  | more t left sign right rest ih =>
    obtain ⟨ht, hrest⟩ := he
    obtain ⟨o₁, ho⟩ := operand_of_usable hmax first ht
      (left.head_contains (by decide) (sign.head_operandStop (right.1 ++ rest.chars)))
      (o + Text.utf8Length gap.1)
    have hleft : Scanner.skip (blanks ++ [','])
        ⟨o₁, left.1 ++ (sign.1.1 ++ (right.1 ++ rest.chars))⟩ =
          ⟨o₁ + Text.utf8Length left.1, sign.1.1 ++ (right.1 ++ rest.chars)⟩ := by
      have hall : blanks.all (blanks ++ [',']).contains = true := by decide
      exact Scanner.skip_append (fun c hc => all_of_contains hall (left.2 c hc))
        (sign.head_contains _)
    have hsign : Scanner.operator? Operator.chars
        ⟨o₁ + Text.utf8Length left.1, sign.1.1 ++ (right.1 ++ rest.chars)⟩ =
          some (sign.1.1, ⟨_, right.1 ++ rest.chars⟩) :=
      Scanner.operator?_append sign.chars.1 sign.chars.2 (rest.head_contains right (by decide))
    obtain ⟨h, hexpr⟩ := Context.expression_of_operator?_some (hskip gap t _ o) ho hleft hsign
      sign.ofSpelling?
    obtain ⟨o₂, h₂, htail⟩ := ih hrest right false _
    refine ⟨o₂, Nat.lt_of_lt_of_le h₂ h, hexpr.trans ?_⟩
    rw [htail]
    rfl

end

/-! ## The line -/

/-- The instruction of the line. -/
def flatInstruction (symbols : Symbols) (x : Name) (e : Tokens) : Instruction :=
  .assign .mov x.text (e.tree symbols)

theorem Term.legible_resolve {symbols : Symbols} {t : Term} (ht : t.Usable symbols) :
    (t.resolve symbols).Legible := by
  cases t with
  | number d => simp only [resolve, Operand.Legible]
  | text q =>
    simp only [resolve, Operand.Legible]
    exact textFits_of_short q
  | var x =>
    rcases ht with ⟨hvar, hfits⟩ | ⟨k, hk, hfits⟩
    · simp only [resolve, hvar, Operand.Legible]
      exact hfits
    · simp only [resolve, hk]
      cases k with
      | number n => simp only [Constant.operand, Operand.Legible]
      | text s =>
        simp only [Constant.operand, Operand.Legible]
        exact hfits

theorem Tokens.legible_tree {symbols : Symbols} {e : Tokens} (he : e.Usable symbols) :
    (e.tree symbols).Legible := by
  induction e with
  | last t =>
    simp only [tree, Expression.Legible]
    exact Term.legible_resolve he
  | more t left sign right rest ih =>
    simp only [tree, Expression.Legible]
    exact ⟨Grouped.ne_close sign, Term.legible_resolve he.1, ih he.2⟩

section
variable {c c' : Compiler} {x : Name} {e : Tokens} (left right : Gap)
  (hmax : 250 ≤ c.config.maxString) (hx : c.symbols.get? x.text = some .var)
  (he : e.Usable c.symbols)
include hmax hx he

theorem statement_flat_iff :
    statement (flatLine x left right e.chars) c = .ok () c' ↔
      Item.textFits x.text = true ∧ c' = { c with
        program := c.program.writeAll (flatInstruction c.symbols x e).items } := by
  have hword : ∀ d ∈ x.chars, ('%' :: headStop).contains d = false := fun d hd =>
    contains_of_isOrdinary (x.isWord.2 d hd) (by decide)
  have hequals : ∀ set : List Char, set.contains '=' = true →
      ∀ d ∈ ('=' :: (right.1 ++ e.chars)).head?, set.contains d = true := by
    intro set hset d hd
    obtain rfl := Option.some.inj hd
    exact hset
  have hstatement : statement (flatLine x left right e.chars) c = _ :=
    Grouped.statement_var x.isWord.1 hword (x.isWord.head_contains (by decide))
      (left.head_contains (by decide) (hequals _ (by decide))) hx
  have hskip : Scanner.skip blanks
      ⟨Text.utf8Length x.chars, left.1 ++ '=' :: (right.1 ++ e.chars)⟩ =
        ⟨Text.utf8Length x.chars + Text.utf8Length left.1, '=' :: (right.1 ++ e.chars)⟩ := by
    refine Scanner.skip_append left.2 fun d hd => ?_
    obtain rfl := Option.some.inj hd
    decide
  have hdraft : ∀ items, c.context.assignment x.text _ = ⟨items, .ok ()⟩ ↔ _ := fun items =>
    Grouped.assignment_mov_iff hskip (e.head_contains right (by decide))
      (fun o => @Tokens.expression c.context hmax e he right true o)
  rw [hstatement, emit_eq_ok_iff]
  constructor
  · rintro ⟨items, hitems, rfl⟩
    obtain ⟨hfits, rfl⟩ := (hdraft items).1 hitems
    exact ⟨hfits, rfl⟩
  · rintro ⟨hfits, rfl⟩
    exact ⟨_, (hdraft _).2 ⟨hfits, rfl⟩, rfl⟩

/-- The line is compiled to one assignment, as long as the name of its variable fits the
stream. -/
theorem line_flat_iff :
    line (flatLine x left right e.chars) c = .ok () c' ↔
      Item.textFits x.text = true ∧ c' = { c with
        program := c.program.writeAll (flatInstruction c.symbols x e).items } := by
  have hequals : ∀ d ∈ ('=' :: (right.1 ++ e.chars)).head?, headStop.contains d = true := by
    intro d hd
    obtain rfl := Option.some.inj hd
    decide
  have hhead : head? headStop (flatLine x left right e.chars) = _ :=
    head?_append x.isWord.1 (fun d hd => contains_of_isOrdinary (x.isWord.2 d hd) (by decide))
      (x.isWord.head_contains (by decide)) (left.head_contains (by decide) hequals)
  have hopening := opening_of_passes (congrFun hhead c) (.inl ⟨_, hx, by simp⟩)
  rw [(isLine_flatLine x left right e).1.statements] at hopening
  rw [line_of_opening hopening, statement_flat_iff left right hmax hx he]

end

/-! ## Running it -/

section
variable {σ : Type} (host : Host σ) (symbols : Symbols) (s : Store) (h : σ)

theorem Term.eval_resolve (t : Term) :
    (t.resolve symbols).eval host .run (s, h) = .ok (t.given symbols s) (s, h) := by
  cases t with
  | number d =>
    simp only [resolve, Operand.eval]
    rfl
  | text q =>
    simp only [resolve, Operand.eval]
    rfl
  | var x =>
    simp only [resolve, given]
    split
    · rename_i k _
      cases k <;> simp only [Constant.operand, Operand.eval] <;> rfl
    · simp only [Operand.eval]
      rfl

theorem Tokens.chain_tree (e : Tokens) :
    (e.tree symbols).chain host .run (s, h) =
      .ok (e.operands symbols s, e.operators) (s, h) := by
  induction e with
  | last t =>
    simp only [tree, Expression.chain, bind, EStateM.bind, t.eval_resolve]
    rfl
  | more t left sign right rest ih =>
    simp only [tree, Expression.chain, bind, EStateM.bind, t.eval_resolve, ih]
    rfl

/-- The operands and operators are reduced, and nothing else changes. -/
theorem Tokens.eval_tree (e : Tokens) :
    (e.tree symbols).eval host .run (s, h) =
      Work.ofExcept (Value.reduce (e.operands symbols s) e.operators) (s, h) := by
  simp only [Expression.eval, bind, EStateM.bind, e.chain_tree]
  rfl

end

/-- In a compile run, the line is compiled, and its instruction stands in the finished
program where the line was compiled. -/
theorem has_flatInstruction {x : Name} (left right : Gap) {e : Tokens} {config : Config}
    {feeds feeds' : List Feed} {file source : String} {before after : List (List Char)}
    {c₀ c : Compiler}
    (hfeeds : feeds.forM Feed.load (Compiler.ofConfig config) = .ok () c₀)
    (hlines : Source.lines source = before ++ flatLine x left right e.chars :: after)
    (hbefore : Takes (loading c₀ file) before c) (hmax : 250 ≤ c.config.maxString)
    (hx : x.Known c.symbols) (he : e.Usable c.symbols) :
    ∃ c', line (flatLine x left right e.chars) c = .ok () c' ∧
      ∀ f f' p, (feeds ++ .script file source :: feeds').forM Feed.load
          (Compiler.ofConfig config) = .ok () f → finish f = .ok p f' →
        p.code.Has c.program.position (flatInstruction c.symbols x e) c'.program.position := by
  have hlegible : (flatInstruction c.symbols x e).Legible := ⟨hx.2, Tokens.legible_tree he⟩
  have hline := (line_flat_iff left right hmax hx.1 he).2 ⟨hx.2, rfl⟩
  have hwrites : c.Writes [.plain (flatInstruction c.symbols x e)] _ :=
    writes_plain ⟨hlegible, rfl⟩
  refine ⟨_, hline, fun f f' p hall hfinish => ?_⟩
  obtain ⟨b, hholds⟩ :=
    Grouped.holdsPlan_of_feeds hfeeds hlines hbefore hline hwrites hall hfinish
  rw [hwrites.position]
  exact hholds.has (hwrites.legible _ List.mem_cons_self)

/-- Flat expressions keep their tokens.  In any compile run, wherever in a script the line
stands that assigns operands with signs between them, with or without blanks and tabs
between any two tokens: nothing of the line is taken for a comment, the line is compiled,
and running it stores in the variable what reducing the operands and operators gives, or
fails with the same kind of error.  Names among the operands must be those of variables
or constants; names of variables and texts of constants must fit the stream; and the
memory takes no value once more than 65535 variables are there. -/
theorem flat_line_runs (x : Name) (left right : Gap) (e : Tokens) {config : Config}
    {feeds feeds' : List Feed} {file source : String} {before after : List (List Char)}
    {c₀ c : Compiler}
    (hfeeds : feeds.forM Feed.load (Compiler.ofConfig config) = .ok () c₀)
    (hlines : Source.lines source = before ++ flatLine x left right e.chars :: after)
    (hbefore : Takes (loading c₀ file) before c) (hmax : 250 ≤ c.config.maxString)
    (hx : x.Known c.symbols) (he : e.Usable c.symbols) :
    Source.cleanLine false (flatLine x left right e.chars) =
        (flatLine x left right e.chars, false) ∧
      ∃ c', line (flatLine x left right e.chars) c = .ok () c' ∧
        ∀ f f' p, (feeds ++ .script file source :: feeds').forM Feed.load
            (Compiler.ofConfig config) = .ok () f → finish f = .ok p f' →
          ∀ {σ : Type} (host : Host σ) (m : Machine) (h : σ), m.code = p.code →
            m.position = c.program.position → m.mode = .run → m.running = true →
            (∀ v, Value.reduce (e.operands c.symbols m.store) e.operators = .ok v →
              m.store.size ≤ 65535 →
              ∃ s, Exec.steps host 1 (m, h) =
                  .ok false (Grouped.moved m c'.program.position s, h) ∧
                s.get? x.text = some v ∧ ∀ y, y ≠ x.text → s.get? y = m.store.get? y) ∧
            ∀ err, Value.reduce (e.operands c.symbols m.store) e.operators = .error err →
              Exec.Fails host (m, h) err.kind := by
  obtain ⟨c', hline, hhas⟩ :=
    has_flatInstruction left right hfeeds hlines hbefore hmax hx he
  refine ⟨cleanLine_of_isLine (isLine_flatLine x left right e), c', hline, ?_⟩
  intro f f' p hall hfinish σ host m h hcode hposition hmode hrunning
  have hinstruction := hhas f f' p hall hfinish
  rw [← hcode, ← hposition] at hinstruction
  refine ⟨fun v hv hsize => ?_, fun err herr => ?_⟩
  · have heval : (e.tree c.symbols).eval host .run (m.store, h) = .ok v (m.store, h) := by
      rw [e.eval_tree, hv]
      rfl
    have hstore : m.store.store x.text v = .ok ⟨m.store.vars.insert x.text v⟩ :=
      if_neg (by omega)
    have hstep := Exec.steps_mov hinstruction hmode hrunning heval hstore
    refine ⟨⟨m.store.vars.insert x.text v⟩, hstep, ?_, fun y hy => ?_⟩
    · rw [Store.get?_store hstore, if_pos rfl]
    · rw [Store.get?_store hstore, if_neg hy.symm]
  · have heval : (e.tree c.symbols).eval host .run (m.store, h) = .error err (m.store, h) := by
      rw [e.eval_tree, herr]
      rfl
    exact Exec.fails_mov hinstruction hmode hrunning (.inl heval)

/-- No blank. -/
def noGap : Gap :=
  ⟨[], by simp⟩

theorem isDigits_digit {c : Char} (h : c.isDigit = true) : Text.isDigits [c] = true := by
  simp [Text.isDigits, h]

theorem ofDigitChars_digit_le {c : Char} (h : c.isDigit = true) :
    Nat.ofDigitChars 10 [c] 0 ≤ 9223372036854775807 := by
  have hle : c.toNat ≤ 57 := (Char.isDigit_iff_toNat.1 h).2
  simp only [Nat.ofDigitChars_cons, Nat.ofDigitChars_nil]
  omega

/-- A digit as a number. -/
def Digits.ofDigit (c : Char) (h : c.isDigit = true) : Digits :=
  ⟨[c], isDigits_digit h, ofDigitChars_digit_le h⟩

/-- The lines `define k 7` and `var x` make a constant and a variable, and write nothing. -/
theorem exists_takes_define_var :
    ∃ c, Takes (fresh "") ["define k 7".toList, "var x".toList] c ∧
      c.symbols.get? "k" = some (.constant (.number 7)) ∧ c.symbols.get? "x" = some .var ∧
      (fresh "").Writes [] c ∧ c.structures.top? = none := by
  have hok : (match ["define k 7".toList, "var x".toList].forM line (fresh "") with
      | .ok _ c => c.symbols.get? "k" = some (.constant (.number 7)) &&
        c.symbols.get? "x" = some .var && c.program.code.isEmpty && c.fixups.isEmpty &&
        c.structures.top?.isNone
      | .error _ _ => false) = true := by
    decide +kernel
  split at hok
  · rename_i u c hc
    simp only [Bool.and_eq_true, decide_eq_true_eq, Array.isEmpty_iff, Option.isNone_iff_eq_none]
      at hok
    obtain ⟨⟨⟨⟨hk, hx⟩, hcode⟩, hfixups⟩, hopen⟩ := hok
    exact ⟨c, takes_of_forM_line hc, hk, hx, .none hcode hfixups, hopen⟩
  · cases hok

/-- The tokens `k/2 -`, a tab and `x`. -/
def quotientLessX : Tokens :=
  .more (.var (.ofLetter 'k' (by decide) (by decide +kernel))) noGap ⟨(['/'], .div), by decide⟩
    noGap (.more (.number (.ofDigit '2' rfl)) ⟨[' '], List.forall_mem_singleton.2 rfl⟩
      ⟨(['-'], .sub), by decide⟩ ⟨['\t'], List.forall_mem_singleton.2 rfl⟩ (.last (.var nameX)))

/-- A script that ends with the line, behind lines that write nothing and leave nothing
open, is compiled. -/
theorem exists_compile_flatLine {file source : String} {before : List (List Char)} {c : Compiler}
    {x : Name} {left right : Gap} {e : Tokens}
    (hlines : Source.lines source = before ++ [flatLine x left right e.chars])
    (hbefore : Takes (fresh file) before c) (hwrites : (fresh file).Writes [] c)
    (hopen : c.structures.top? = none) (hmax : 250 ≤ c.config.maxString)
    (hx : x.Known c.symbols) (he : e.Usable c.symbols) :
    ∃ p f f', compile file source = .ok p ∧ 0 < p.code.size ∧
      [Feed.script file source].forM Feed.load (Compiler.ofConfig {}) = .ok () f ∧
      finish f = .ok p f' := by
  have hline := (line_flat_iff left right hmax hx.1 he).2 ⟨hx.2, rfl⟩
  have hall := takes_append_iff.2 ⟨c, hbefore, takes_singleton_iff.2 hline⟩
  rw [← hlines] at hall
  have hwritten : (fresh file).Writes (Plan.ofInstructions [flatInstruction c.symbols x e]) _ :=
    hwrites.trans (writes_plain ⟨⟨hx.2, Tokens.legible_tree he⟩, rfl⟩)
  obtain ⟨p, hp, hsize⟩ := Grouped.exists_compile hall hwritten hopen
  obtain ⟨f, f', htakes, hfinish⟩ := compile_eq_ok_iff.1 hp
  have hscript := Grouped.forM_singleton_eq_ok_iff.2 (script_eq_ok_iff.2 htakes)
  exact ⟨p, f, f', hp, hsize, hscript, hfinish⟩

/-- A line with a constant, a number and a variable, and few blanks. -/
theorem quotient_less_x_runs :
    ∃ p, compile "" "define k 7\nvar x\nx=k/2 -\tx" = .ok p ∧
      ∀ {σ : Type} (host : Host σ) (m : Machine) (h : σ),
        Machine.start p.code 0 false m = .ok () (started m p.code) ∧
        ∃ q s, Exec.steps host 1 (started m p.code, h) =
            .ok false (Grouped.moved (started m p.code) q s, h) ∧
          s.get? "x" = some (.int 3) ∧ ∀ y, y ≠ "x" → s.get? y = Store.initial.get? y := by
  have hlines : Source.lines "define k 7\nvar x\nx=k/2 -\tx" =
      ["define k 7".toList, "var x".toList] ++
        [flatLine nameX noGap noGap quotientLessX.chars] := by
    decide +kernel
  obtain ⟨c, htakes, hk, hx, hwrites, hopen⟩ := exists_takes_define_var
  have hmax : 250 ≤ c.config.maxString := Nat.le_of_eq (by rw [config_of_takes htakes]; rfl)
  have hknown : nameX.Known c.symbols := ⟨hx, by decide⟩
  have husable : quotientLessX.Usable c.symbols := ⟨.inr ⟨_, hk, trivial⟩, trivial, .inl hknown⟩
  obtain ⟨_, c', hline, hruns⟩ := @flat_line_runs nameX noGap noGap quotientLessX {} [] [] "" _ _ _
    _ c rfl hlines htakes hmax hknown husable
  obtain ⟨p, f, f', hp, hsize, hscript, hfinish⟩ :=
    exists_compile_flatLine hlines htakes hwrites hopen hmax hknown husable
  refine ⟨p, hp, fun host m h => ⟨start_eq_ok hsize, ?_⟩⟩
  have hposition : 0 = c.program.position := hwrites.position.symm
  have hreduce : Value.reduce (quotientLessX.operands c.symbols Store.initial)
      quotientLessX.operators = .ok (.int 3) := by
    have hx' : c.symbols.get? nameX.text = some .var := hx
    have hk' : c.symbols.get? (Name.ofLetter 'k' (by decide) (by decide +kernel)).text =
        some (.constant (.number 7)) := hk
    simp only [quotientLessX, Tokens.operands, Term.given, hk', hx']
    rfl
  have hsmall : Store.initial.size ≤ 65535 := by decide
  obtain ⟨s, hsteps, hstored, hothers⟩ := (hruns f f' p hscript hfinish host (started m p.code) h
    rfl hposition rfl rfl).1 _ hreduce hsmall
  exact ⟨_, s, hsteps, hstored, hothers⟩

/-- The memory behind a value for each of the first `n` temporaries. -/
def crowded (n : Nat) : Store :=
  .behind ((List.range n).map fun k => .store (Grouped.temporaryName k) default)

theorem crowded_succ (n : Nat) :
    crowded (n + 1) = (crowded n).answer (.store (Grouped.temporaryName n) default) := by
  rw [crowded, List.range_succ, List.map_append, List.map_singleton, Store.behind_append]
  rfl

theorem get?_crowded {n k : Nat} (hk : n ≤ k) :
    (crowded n).get? (Grouped.temporaryName k) = none := by
  induction n with
  | zero =>
    have hnull : nullName ≠ Grouped.temporaryName k :=
      (Grouped.temporaryName_ne (by decide) k).symm
    show Store.initial.get? _ = none
    simp [Store.get?, Store.initial, hnull]
  | succ n ih =>
    have hrest := ih (by omega)
    rw [crowded_succ]
    cases hstored : (crowded n).store (Grouped.temporaryName n) default with
    | error e => rwa [Store.answer_of_error hstored]
    | ok t =>
      rw [Store.answer_of_ok hstored, Store.get?_store hstored, if_neg fun heq => ?_]
      · exact hrest
      · have := Grouped.temporaryName_injective heq
        omega

/-- `NULL` and the temporaries. -/
theorem size_crowded {n : Nat} (hn : n ≤ 65535) : (crowded n).size = n + 1 := by
  induction n with
  | zero => rfl
  | succ n ih =>
    have hsize := ih (by omega)
    have hstored : (crowded n).store (Grouped.temporaryName n) default = .ok _ :=
      Store.store_eq_ok (by omega)
    have hnew : (crowded n).contains (Grouped.temporaryName n) = false := by
      rw [Store.contains_eq, get?_crowded n.le_refl]
      rfl
    rw [crowded_succ, Store.answer_of_ok hstored, Store.size_store hstored, hnew, hsize]
    rfl

/-- The token `1`. -/
def oneToken : Tokens :=
  .last (.number (.ofDigit '1' rfl))

/-- A declared variable is not enough: its name may be too long for the stream, and the
memory may be full, of `NULL` and 65535 temporaries, although reducing the expression gives
a value. -/
theorem flat_line_limits :
    (∃ c, Takes (fresh "") [headed .var longName.chars] c ∧
      c.symbols.get? longName.text = some .var ∧
      ∀ c', line (flatLine longName noGap noGap oneToken.chars) c ≠ .ok () c') ∧
    ∃ p, compile "" "var x\nx=1" = .ok p ∧ Value.reduce [.int 1] [] = .ok (.int 1) ∧
      ∀ {σ : Type} (host : Host σ) (m : Machine) (h : σ),
        Exec.Fails host ({ started m p.code with store := crowded 65535 }, h) .outOfMemory := by
  refine ⟨⟨_, Grouped.takes_declared "" longName, Grouped.get?_declared "" longName,
    fun c' h => ?_⟩, ?_⟩
  · have hone : oneToken.Usable (declared (fresh "") longName).symbols := trivial
    have hlong := Grouped.get?_declared "" longName
    have hfits := ((line_flat_iff noGap noGap (by decide) hlong hone).1 h).1
    rw [not_textFits_longName] at hfits
    cases hfits
  · have hlines : Source.lines "var x\nx=1" =
        [headed .var nameX.chars] ++ [flatLine nameX noGap noGap oneToken.chars] := by
      decide +kernel
    have htakes := Grouped.takes_declared "" nameX
    have hmax : 250 ≤ (declared (fresh "") nameX).config.maxString := by decide
    have hknown : nameX.Known (declared (fresh "") nameX).symbols :=
      ⟨Grouped.get?_declared "" nameX, by decide⟩
    have hone : oneToken.Usable (declared (fresh "") nameX).symbols := trivial
    obtain ⟨c', _, hhas⟩ := @has_flatInstruction nameX noGap noGap oneToken {} [] [] "" _ _ _ _ _
      rfl hlines htakes hmax hknown hone
    obtain ⟨p, f, f', hp, _, hscript, hfinish⟩ := exists_compile_flatLine hlines htakes
      (Grouped.writes_declared "" nameX) rfl hmax hknown hone
    refine ⟨p, hp, rfl, fun host m h => ?_⟩
    have hfails (s : Store) (hfull : 65535 < s.size) :
        Exec.Fails host ({ started m p.code with store := s }, h) .outOfMemory := by
      have hrefused : s.store nameX.text (.int 1) = .error (.of .tooManyVariables) :=
        Store.store_eq_error_iff.2 ⟨hfull, rfl⟩
      exact Exec.fails_mov (m := { started m p.code with store := s })
        (hhas f f' p hscript hfinish) rfl rfl (.inr ⟨.int 1, Tokens.eval_tree .., hrefused⟩)
    refine hfails _ ?_
    rw [size_crowded (Nat.le_refl _)]
    exact Nat.lt_succ_self 65535

end Structured

end ScriptMachine
