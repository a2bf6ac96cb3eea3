/-
  ScriptMachine.Proofs.Phrases.Reading

  Reading phrases back.  An operand is found wherever something stands behind it that ends
  one, whatever is skipped in front of it (`Part.Slotted.found`); so the readers find the
  operands and signs of a phrase, with the temporaries in the places of its groups
  (`Phrase.expression`).  Names are those of variables or of constants.
-/

import ScriptMachine.Proofs.Phrases.Splitting
import ScriptMachine.Proofs.Structured.Tokens

namespace ScriptMachine.Phrases

open Compile Structured
open Grouped (isWord_temporary temporary temporaryName)

/-! ## Operands -/

/-- The operand that a name stands for. -/
def named (t : Symbols) (name : String) : Operand :=
  match t.get? name with
  | some (.constant k) => k.operand
  | _ => .var name

/-- The name is that of a constant whose text, if it has one, fits the stream. -/
def IsConstant (t : Symbols) (name : String) : Prop :=
  ∃ k, t.get? name = some (.constant k) ∧ k.Fits

/-- The name is that of a variable and fits the stream. -/
def IsVariable (t : Symbols) (name : String) : Prop :=
  t.get? name = some .var ∧ Item.textFits name = true

namespace Atom

/-- The operand that an atom is written as. -/
def resolve (t : Symbols) : Atom → Operand
  | number d => .num d.value
  | text q => .str q.text
  | marked w => named t w.text
  | name y => named t y.text

/-- A string is shorter than the limit and fits the stream; a marked name is that of a
constant, any other name that of a variable or of a constant. -/
def Usable (t : Symbols) (limit : Nat) : Atom → Prop
  | number _ => True
  | text q => Text.utf8Length q.chars < limit ∧ Item.textFits q.text = true
  | marked w => IsConstant t w.text
  | name y => IsVariable t y.text ∨ IsConstant t y.text

end Atom

mutual

/-- The atoms of an operand, those in its groups included. -/
def Part.atoms : Part → List Atom
  | .atom a => [a]
  | .group p => p.atoms

/-- The atoms of a phrase, those in its groups included. -/
def Phrase.atoms : Phrase → List Atom
  | .last _ i _ => i.atoms
  | .more _ i _ _ rest => i.atoms ++ rest.atoms

end

/-- The operand in the place of a part. -/
def Part.operand (t : Symbols) (n : Nat) : Part → Operand
  | .atom a => a.resolve t
  | .group _ => .var (temporaryName n)

/-- The instruction tree of a phrase without its groups. -/
def Phrase.tree (t : Symbols) (n : Nat) : Phrase → Expression
  | .last _ i _ => .last (i.operand t n)
  | .more _ i _ sign rest => .more (i.operand t n) sign.1.2 (rest.tree t (n + i.pairs))

/-- Later symbols know all that the earlier ones know. -/
def Extends (t t' : Symbols) : Prop :=
  ∀ name s, t.get? name = some s → t'.get? name = some s

/-- The names in the place of a part are known: those of atoms from the start, that of a
temporary in the meantime. -/
def Part.Slotted (t t' : Symbols) (limit n : Nat) : Part → Prop
  | .atom a => a.Usable t limit
  | .group _ => IsVariable t' (temporaryName n)

/-- All names in the statement of a phrase are known. -/
def Phrase.Slotted (t t' : Symbols) (limit n : Nat) : Phrase → Prop
  | .last _ i _ => i.Slotted t t' limit n
  | .more _ i _ _ rest => i.Slotted t t' limit n ∧ rest.Slotted t t' limit (n + i.pairs)

section
variable {t t' t'' : Symbols} {limit n : Nat}

theorem Part.Slotted.mono {i : Part} (h : i.Slotted t t' limit n) (hext : Extends t' t'') :
    i.Slotted t t'' limit n := by
  cases i with
  | atom a => exact h
  | group p => exact ⟨hext _ _ h.1, h.2⟩

theorem named_of_variable {name : String} (h : t.get? name = some .var) :
    named t name = .var name := by
  rw [named, h]

theorem named_of_constant {name : String} {k : Constant}
    (h : t.get? name = some (.constant k)) : named t name = k.operand := by
  rw [named, h]

theorem Constant.legible_operand {k : Constant} (h : k.Fits) : k.operand.Legible := by
  cases k with
  | number n => simp only [Constant.operand, Operand.Legible]
  | text s =>
    simp only [Constant.operand, Operand.Legible]
    exact h

theorem IsConstant.legible {name : String} (h : IsConstant t name) : (named t name).Legible := by
  obtain ⟨k, hk, hfits⟩ := h
  rw [named_of_constant hk]
  exact Constant.legible_operand hfits

theorem IsVariable.legible {name : String} (h : IsVariable t name) :
    (Operand.var name).Legible := by
  simp only [Operand.Legible]
  exact h.2

theorem Part.Slotted.legible {i : Part} (h : i.Slotted t t' limit n) :
    (i.operand t n).Legible := by
  cases i with
  | group p => exact IsVariable.legible h
  | atom a =>
    cases a with
    | number d => simp only [operand, Atom.resolve, Operand.Legible]
    | text q =>
      simp only [operand, Atom.resolve, Operand.Legible]
      exact h.2
    | marked w => exact IsConstant.legible h
    | name y =>
      rcases h with hvar | hconstant
      · simp only [operand, Atom.resolve, named_of_variable hvar.1]
        exact hvar.legible
      · exact hconstant.legible

theorem Phrase.Slotted.legible : ∀ {p : Phrase} {n : Nat}, p.Slotted t t' limit n →
    (p.tree t n).Legible
  | .last _ i _, n, h => by
    simp only [tree, Expression.Legible]
    exact Part.Slotted.legible h
  | .more _ i _ sign rest, n, h => by
    simp only [tree, Expression.Legible]
    exact ⟨Grouped.ne_close sign, h.1.legible, Phrase.Slotted.legible h.2⟩

end

/-! ## Reading operands -/

/-- Wherever the text stands with something behind it that ends an operand, it is read as
the operand. -/
def Found (ctx : Context) (cs : List Char) (o : Operand) : Prop :=
  ∀ (first : Bool) (offset : Nat) (rest : List Char),
    (∀ c ∈ rest.head?, operandStop.contains c = true) → ∃ s offset',
      Scanner.skip ahead ⟨offset, cs ++ rest⟩ = s ∧
        ∃ h, ctx.operand first s = ⟨o.items, .ok (.found ⟨offset', rest⟩ h)⟩

/-- What stands behind a fill is the end of an operand if the fill and what follows are. -/
theorem Fill.head_contains {set large : List Char} (g : Fill set)
    (h : set.all large.contains = true) {cs : List Char}
    (hcs : ∀ c ∈ cs.head?, large.contains c = true) :
    ∀ c ∈ (g.1 ++ cs).head?, large.contains c = true :=
  head_append_contains g.2 h hcs

theorem skip_of_contains {set g : List Char} (hg : ∀ c ∈ g, set.contains c = true)
    (cs : List Char) (o : Nat) :
    ∃ o', Scanner.skip set ⟨o, g ++ cs⟩ = Scanner.skip set ⟨o', cs⟩ := by
  induction g generalizing o with
  | nil => exact ⟨o, rfl⟩
  | cons c g ih =>
    obtain ⟨hc, hg⟩ := List.forall_mem_cons.1 hg
    rw [List.cons_append, Scanner.skip_cons_of_contains hc]
    exact ih hg _

section
variable {ctx : Context} {cs : List Char} {o : Operand}

theorem Found.fill (h : Found ctx cs o) (g : Fill ahead) : Found ctx (g.1 ++ cs) o := by
  intro first offset rest hrest
  obtain ⟨offset', hskip⟩ := skip_of_contains g.2 (cs ++ rest) offset
  rw [List.append_assoc, hskip]
  exact h first offset' rest hrest

/-- An operand is found where it starts. -/
theorem found_of_operand (hne : cs ≠ []) (hhead : ∀ c ∈ cs.head?, ahead.contains c = false)
    (ho : ∀ first offset rest, (∀ c ∈ rest.head?, operandStop.contains c = true) →
      ∃ offset' h, ctx.operand first ⟨offset, cs ++ rest⟩ =
        ⟨o.items, .ok (.found ⟨offset', rest⟩ h)⟩) : Found ctx cs o := by
  intro first offset rest hrest
  obtain ⟨offset', h⟩ := ho first offset rest hrest
  refine ⟨_, offset', Scanner.skip_of_head ?_, h⟩
  cases cs with
  | nil => exact absurd rfl hne
  | cons d ds => exact hhead

theorem contains_ahead {c : Char} (hc : operandStop.contains c = false) :
    ahead.contains c = false :=
  contains_of_all (by decide) hc

/-- A number. -/
theorem found_number (d : Digits) : Found ctx d.chars (.num d.value) := by
  have hw : ∀ c ∈ d.chars, operandStop.contains c = false := fun c hc =>
    contains_of_isOrdinary (d.isWord.2 c hc) (by decide)
  refine found_of_operand d.isWord.1 (fun c hc => contains_ahead (hw c (List.mem_of_mem_head? hc)))
    fun first offset rest hrest => ?_
  exact operand_number first hrest offset d

/-- A string literal. -/
theorem found_text {q : Literal} (hshort : Text.utf8Length q.chars < ctx.maxString)
    (hfits : Item.textFits q.text = true) : Found ctx (Atom.text q).chars (.str q.text) := by
  refine found_of_operand (by simp [Atom.chars]) (by simp [Atom.chars]; decide)
    fun first offset rest _ => ?_
  have hchars : (Atom.text q).chars ++ rest = '"' :: (q.chars ++ '"' :: rest) := by
    simp [Atom.chars]
  rw [hchars]
  exact operand_literal first q.inside hshort hfits rest offset

/-- A constant between its marks. -/
theorem found_marked {w : Marked} (hw : IsConstant ctx.symbols w.text) :
    Found ctx (Atom.marked w).chars (named ctx.symbols w.text) := by
  obtain ⟨k, hk, hfits⟩ := hw
  refine found_of_operand (by simp [Atom.chars]) (by simp [Atom.chars]; decide)
    fun first offset rest _ => ?_
  obtain ⟨offset', hd⟩ := @Scanner.delimited?_append '#' w.chars rest offset w.inside
  have hchars : (Atom.marked w).chars ++ rest = '#' :: (w.chars ++ '#' :: rest) := by
    simp [Atom.chars]
  rw [hchars, named_of_constant hk]
  refine ⟨offset', Scanner.length_delimited_lt hd, ?_⟩
  rw [Context.operand]
  show ctx.markedConstant _ = _
  unfold Context.markedConstant
  split
  · rename_i hnone
    rw [hd] at hnone
    cases hnone
  · rename_i name s hsome
    rw [hd] at hsome
    cases hsome
    rw [show ctx.symbols.get? (String.ofList w.chars) = _ from hk]
    dsimp only
    rw [Constant.draft_of_fits hfits, Draft.bind_of_ok rfl]
    exact congrArg (Draft.mk · _) (List.append_nil _)

/-- A name of a variable or of a constant. -/
theorem found_name {y : Mention} (hy : IsVariable ctx.symbols y.text ∨
    IsConstant ctx.symbols y.text) : Found ctx y.chars (named ctx.symbols y.text) := by
  refine found_of_operand y.nonempty
    (fun c hc => contains_ahead (y.whole c (List.mem_of_mem_head? hc)))
    fun first offset rest hrest => ?_
  have hhead : ∀ c ∈ (y.chars ++ rest).head?, ['"', '#'].contains c = false := by
    have hunmarked := y.unmarked
    have hne := y.nonempty
    cases hy : y.chars with
    | nil => exact absurd hy hne
    | cons d ds =>
      rw [hy] at hunmarked
      exact hunmarked
  rcases hy with ⟨hvar, hfits⟩ | ⟨k, hk, hfits⟩
  · rw [named_of_variable hvar]
    exact operand_variable first hrest offset y.nonempty y.whole hhead y.notDigits hvar hfits
  · rw [named_of_constant hk]
    exact operand_constant first y.nonempty y.whole hhead hrest y.notDigits hk hfits offset

end

/-- A word that is no number is read as a whole. -/
def Mention.ofWord {w : List Char} (hw : IsWord w) (hdigits : Text.isDigits w = false) :
    Mention where
  chars := w
  nonempty := hw.1
  calm := calm_of_isWord hw
  whole := fun c hc => contains_of_isOrdinary (hw.2 c hc) (by decide)
  notDigits := hdigits
  unmarked := fun c hc =>
    contains_of_isOrdinary (hw.2 c (List.mem_of_mem_head? hc)) (by decide)

/-- The name of a temporary as an operand. -/
def ofTemporary (n : Nat) : Mention :=
  .ofWord (isWord_temporary n) rfl

section
variable {ctx : Context} {limit : Nat} (hmax : limit ≤ ctx.maxString) {t : Symbols}
  (hext : Extends t ctx.symbols)
include hext

theorem IsConstant.later {name : String} (h : IsConstant t name) :
    IsConstant ctx.symbols name ∧ named ctx.symbols name = named t name := by
  obtain ⟨k, hk, hfits⟩ := h
  exact ⟨⟨k, hext _ _ hk, hfits⟩, by rw [named_of_constant hk, named_of_constant (hext _ _ hk)]⟩

theorem IsVariable.later {name : String} (h : IsVariable t name) :
    IsVariable ctx.symbols name ∧ named ctx.symbols name = named t name :=
  ⟨⟨hext _ _ h.1, h.2⟩, by rw [named_of_variable h.1, named_of_variable (hext _ _ h.1)]⟩

/-- A known name stands for the same later. -/
theorem known_later {name : String} (h : IsVariable t name ∨ IsConstant t name) :
    (IsVariable ctx.symbols name ∨ IsConstant ctx.symbols name) ∧
      named ctx.symbols name = named t name := by
  rcases h with hvar | hconstant
  · exact (hvar.later hext).imp_left .inl
  · exact (hconstant.later hext).imp_left .inr

include hmax

theorem Part.Slotted.found {i : Part} {n : Nat} (h : i.Slotted t ctx.symbols limit n) :
    Found ctx (i.slot n) (i.operand t n) := by
  cases i with
  | group p =>
    have hname := found_name (y := ofTemporary n) (.inl h)
    rw [show named ctx.symbols (ofTemporary n).text = _ from named_of_variable h.1] at hname
    exact hname.fill ⟨[' '], List.forall_mem_singleton.2 (by decide)⟩
  | atom a =>
    cases a with
    | number d => exact found_number d
    | text q => exact found_text (Nat.lt_of_lt_of_le h.1 hmax) h.2
    | marked w =>
      obtain ⟨hconstant, heq⟩ := IsConstant.later hext h
      have hfound := found_marked hconstant
      rw [heq] at hfound
      exact hfound
    | name y =>
      obtain ⟨hknown, heq⟩ := known_later hext h
      have hfound := found_name hknown
      rw [heq] at hfound
      exact hfound

end

/-! ## Reading phrases -/

theorem Ending.head_operandStop (z : Ending) :
    ∀ c ∈ z.chars.head?, operandStop.contains c = true := by
  have htail : ∀ c ∈ (z.tail.1 ++ []).head?, operandStop.contains c = true :=
    z.tail.head_contains (by decide) (by simp)
  rw [List.append_nil] at htail
  exact z.back.head_contains (by decide) (z.brackets.head_contains (by decide) htail)

/-- The readers skip an ending: no operator is found in it, and but for blanks nothing is left
behind its brackets. -/
theorem Ending.skip (z : Ending) (o : Nat) :
    ∃ s, Scanner.skip behind ⟨o, z.chars⟩ = s ∧ s.operator? Operator.chars = none ∧
      ∀ c ∈ (s.skip [']']).rest, blanks.contains c = true := by
  obtain ⟨o₁, hback⟩ := skip_of_contains z.back.2 (z.brackets.1 ++ z.tail.1) o
  have hbracket : ∀ c ∈ z.tail.1.head?, [']'].contains c = false := by
    intro c hc
    exact not_contains_of_all (by decide) (z.tail.2 c (List.mem_of_mem_head? hc))
  rw [Ending.chars, hback]
  cases hb : z.brackets.1 with
  | nil =>
    -- without brackets the blanks are skipped at once
    have hall := @Scanner.skip_append behind z.tail.1 [] o₁
      (fun c hc => all_of_contains (by decide) (z.tail.2 c hc)) (by simp)
    rw [List.append_nil] at hall
    rw [List.nil_append, hall]
    exact ⟨_, rfl, rfl, List.forall_mem_nil _⟩
  | cons c cs =>
    have hbrackets := z.brackets.2
    rw [hb] at hbrackets
    have hc : c = ']' := by simpa using hbrackets c List.mem_cons_self
    subst hc
    have hstop := @Scanner.skip_of_head behind (']' :: cs ++ z.tail.1) o₁
      (by intro d hd; obtain rfl := Option.some.inj hd; decide)
    rw [hstop]
    refine ⟨_, rfl, rfl, ?_⟩
    rw [Scanner.skip_append hbrackets hbracket]
    exact z.tail.2

section
variable {ctx : Context} {limit : Nat} (hmax : limit ≤ ctx.maxString) {t : Symbols}
  (hext : Extends t ctx.symbols)

/-- What stands at the start of a phrase is in no set of signs. -/
theorem Phrase.head_contains (p : Phrase) (n : Nat) {set : List Char}
    (hset : set.all Operator.chars.contains = true) :
    ∀ c ∈ (p.own n).head?, set.contains c = false := by
  have hsign : ∀ {c : Char}, Operator.chars.contains c = false → set.contains c = false :=
    fun hc => contains_of_all hset hc
  have hatom : ∀ (a : Atom) (cs : List Char), ∀ c ∈ (a.chars ++ cs).head?,
      set.contains c = false := by
    intro a cs c hc
    refine hsign ?_
    cases a with
    | number d => exact d.isWord.head_contains (by decide) c hc
    | text q =>
      obtain rfl := Option.some.inj hc
      decide
    | marked w =>
      obtain rfl := Option.some.inj hc
      decide
    | name y =>
      have hne := y.nonempty
      have hwhole := y.whole
      cases hy : y.chars with
      | nil => exact absurd hy hne
      | cons d ds =>
        rw [Atom.chars, hy] at hc
        obtain rfl := Option.some.inj hc
        exact contains_of_all (by decide) (hwhole d (by simp [hy]))
  have hslot : ∀ (i : Part) (cs : List Char), ∀ c ∈ (i.slot n ++ cs).head?,
      set.contains c = false := by
    intro i cs c hc
    cases i with
    | atom a => exact hatom a cs c hc
    | group p =>
      obtain rfl := Option.some.inj hc
      exact hsign (by decide)
  have hfront : ∀ (g : Fill ahead) (i : Part) (cs : List Char),
      ∀ c ∈ (g.1 ++ (i.slot n ++ cs)).head?, set.contains c = false := by
    intro g i cs
    have hall := g.2
    cases hg : g.1 with
    | nil => exact hslot i cs
    | cons d ds =>
      intro c hc
      obtain rfl := Option.some.inj hc
      have hplain : Operator.chars.all (fun c => !ahead.contains c) = true := by decide
      exact hsign (not_contains_of_all hplain (hall d (by simp [hg])))
  cases p with
  | last front i z => exact hfront front i _
  | more front i back sign rest => exact hfront front i _

include hmax hext

/-- The operands and signs of a phrase are found whatever is skipped around them; but for
blanks the line ends behind it.  By recursion on the phrase, which goes into no group. -/
theorem Phrase.expression : ∀ {p : Phrase} {n : Nat}, p.Slotted t ctx.symbols limit n →
    ∀ (first : Bool) (o : Nat), ∃ u h,
      ctx.expression first ⟨o, p.own n⟩ = ⟨(p.tree t n).items, .ok (.found u h)⟩ ∧
        ∀ c ∈ u.rest, blanks.contains c = true
  | .last front i z, n, hp, first, o => by
    have hfound := (Part.Slotted.found hmax hext hp).fill front
    obtain ⟨s, o₁, hs, ho⟩ := hfound first o z.chars z.head_operandStop
    obtain ⟨v, hv, hop, hblank⟩ := z.skip o₁
    rw [List.append_assoc] at hs
    obtain ⟨h, hexpr⟩ := Context.expression_of_operator?_none hs ho hv hop
    exact ⟨_, h, hexpr, hblank⟩
  | .more front i back sign rest, n, hp, first, o => by
    obtain ⟨hi, hrest⟩ := hp
    have hfound := (Part.Slotted.found hmax hext hi).fill front
    obtain ⟨s, o₁, hs, ho⟩ := hfound first o (back.1 ++ (sign.1.1 ++ rest.own (n + i.pairs)))
      (back.head_contains (by decide) (sign.head_operandStop _))
    have hback : Scanner.skip behind ⟨o₁, back.1 ++ (sign.1.1 ++ rest.own (n + i.pairs))⟩ =
        ⟨o₁ + Text.utf8Length back.1, sign.1.1 ++ rest.own (n + i.pairs)⟩ :=
      Scanner.skip_append back.2 (sign.head_contains _)
    have hsign : Scanner.operator? Operator.chars
        ⟨o₁ + Text.utf8Length back.1, sign.1.1 ++ rest.own (n + i.pairs)⟩ =
          some (sign.1.1, ⟨_, rest.own (n + i.pairs)⟩) :=
      Scanner.operator?_append sign.chars.1 sign.chars.2 (rest.head_contains _ (by decide))
    rw [List.append_assoc] at hs
    obtain ⟨h, hexpr⟩ := Context.expression_of_operator?_some hs ho hback hsign sign.ofSpelling?
    obtain ⟨u, hu, htail, hblank⟩ := Phrase.expression hrest false
      (o₁ + Text.utf8Length back.1 + Text.utf8Length sign.1.1)
    refine ⟨u, Nat.lt_of_lt_of_le hu h, hexpr.trans ?_, hblank⟩
    rw [htail]
    rfl

end

end ScriptMachine.Phrases
