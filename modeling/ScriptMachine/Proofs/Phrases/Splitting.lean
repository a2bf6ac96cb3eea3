/-
  ScriptMachine.Proofs.Phrases.Splitting

  Expressions with parentheses.  A phrase is atoms and groups with signs between them,
  where a group is a phrase in parentheses; blanks and the other characters that readers
  skip may stand around each of them.  A line that updates a variable is taken apart into
  one statement for each group, in the order in which the groups close, and a last one for
  the variable (`statements_update`).
-/

import ScriptMachine.Proofs.Grouped.Splitting
import ScriptMachine.Proofs.Parentheses.Flattening
import ScriptMachine.Proofs.Structured.Drafts

namespace ScriptMachine.Phrases

open Structured (Digits Sign spelling)
open Grouped (Leads halfway temporary leads_open leads_close)

/-! ## Texts without groups -/

/-- A text whose strings are closed, without parentheses outside of them. -/
structure Calm (cs : List Char) : Prop where
  closed : Source.quotedAfter false cs = false
  plain : ∀ c ∈ Source.outside false cs, c ≠ '(' ∧ c ≠ ')'

theorem Calm.append {cs ds : List Char} (h : Calm cs) (k : Calm ds) : Calm (cs ++ ds) where
  closed := by rw [Source.quotedAfter_append, h.closed, k.closed]
  plain := by
    rw [Source.outside_append, h.closed]
    exact List.forall_mem_append.2 ⟨h.plain, k.plain⟩

theorem calm_of_plain {cs : List Char} (h : ∀ c ∈ cs, ['"', '(', ')'].contains c = false) :
    Calm cs := by
  induction cs with
  | nil => exact ⟨rfl, List.forall_mem_nil _⟩
  | cons c cs ih =>
    obtain ⟨hc, hcs⟩ := List.forall_mem_cons.1 h
    simp only [List.contains_cons, Bool.or_eq_false_iff, beq_eq_false_iff_ne] at hc
    have htoggle : Source.toggle false c = false := if_neg hc.1
    constructor
    · rw [Source.quotedAfter_cons, htoggle]
      exact (ih hcs).closed
    · rw [Source.outside, if_neg (by simp [hc.1]), htoggle]
      exact List.forall_mem_cons.2 ⟨⟨hc.2.1, hc.2.2.1⟩, (ih hcs).plain⟩

/-- Inside of a string nothing stands outside. -/
theorem inside_quoted {inside : List Char} (h : ∀ c ∈ inside, c ≠ '"') :
    Source.quotedAfter true (inside ++ ['"']) = false ∧
      Source.outside true (inside ++ ['"']) = [] := by
  induction inside with
  | nil => exact ⟨rfl, rfl⟩
  | cons c cs ih =>
    obtain ⟨hc, hcs⟩ := List.forall_mem_cons.1 h
    have htoggle : Source.toggle true c = true := if_neg hc
    rw [List.cons_append, Source.quotedAfter_cons, Source.outside, if_pos (.inl rfl), htoggle]
    exact ih hcs

theorem calm_quoted {inside : List Char} (h : ∀ c ∈ inside, c ≠ '"') :
    Calm ('"' :: (inside ++ ['"'])) := by
  obtain ⟨hclosed, hnothing⟩ := inside_quoted h
  refine ⟨hclosed, ?_⟩
  rw [Source.outside, if_pos (.inr rfl), show Source.toggle false '"' = true from rfl, hnothing]
  exact List.forall_mem_nil _

theorem foldlM_plain (stem : String) {cs : List Char} {g : Source.Grouping}
    (h : ∀ c ∈ Source.outside g.quoted cs, c ≠ '(' ∧ c ≠ ')') :
    ∃ column, cs.foldlM (Source.Grouping.next stem) g = .ok { g with
      quoted := Source.quotedAfter g.quoted cs
      current := cs.reverse ++ g.current
      column } := by
  induction cs generalizing g with
  | nil => exact ⟨g.column, rfl⟩
  | cons c cs ih =>
    have hrest : ∀ d ∈ Source.outside (Source.toggle g.quoted c) cs, d ≠ '(' ∧ d ≠ ')' := by
      rw [Source.outside] at h
      split at h
      · exact h
      · exact (List.forall_mem_cons.1 h).2
    have hc : g.quoted = false → c ≠ '(' ∧ c ≠ ')' := by
      intro hquoted
      rw [Source.outside] at h
      split at h
      · rename_i hquote
        have hquote : c = '"' := by simpa [hquoted] using hquote
        subst hquote
        decide
      · exact (List.forall_mem_cons.1 h).1
    rw [Source.Grouping.foldlM_cons_of_ok (Source.Grouping.next_char hc)]
    obtain ⟨column, hcolumn⟩ := @ih { g with
      quoted := Source.toggle g.quoted c
      current := c :: g.current
      column := g.column + c.utf8Size } hrest
    refine ⟨column, ?_⟩
    rw [hcolumn]
    simp

section
variable (finished around : List (List Char)) (current : List Char) (opened : Nat)

theorem leads_calm {cs : List Char} (h : Calm cs) :
    Leads cs (halfway finished around current opened)
      (halfway finished around (cs.reverse ++ current) opened) := by
  intro column
  obtain ⟨column', hfold⟩ := @foldlM_plain "$" cs
    { halfway finished around current opened with column } h.plain
  refine ⟨column', ?_⟩
  rw [hfold, show (halfway finished around current opened).quoted = false from rfl, h.closed]
  rfl

end

/-! ## Atoms -/

/-- Characters of a set, possibly none. -/
abbrev Fill (set : List Char) := { g : List Char // ∀ c ∈ g, set.contains c = true }

/-- The characters that are skipped in front of an operand. -/
def ahead : List Char :=
  blanks ++ ['[']

/-- The characters that are skipped behind an operand. -/
def behind : List Char :=
  blanks ++ [',']

/-- A name that is read as a whole where an operand may stand, neither as a number nor as a
string or the mark of a constant. -/
structure Mention where
  chars : List Char
  nonempty : chars ≠ []
  calm : Calm chars
  whole : ∀ c ∈ chars, operandStop.contains c = false
  notDigits : Text.isDigits chars = false
  unmarked : ∀ c ∈ chars.head?, ['"', '#'].contains c = false

/-- The name as a string. -/
def Mention.text (y : Mention) : String :=
  String.ofList y.chars

/-- What stands between the two quotes of a string. -/
structure Literal where
  chars : List Char
  inside : ∀ c ∈ chars, c ≠ '"'

/-- The text that a string stands for. -/
def Literal.text (q : Literal) : String :=
  String.ofList q.chars

/-- What stands between the two marks of a constant. -/
structure Marked where
  chars : List Char
  inside : ∀ c ∈ chars, c ≠ '#'
  calm : Calm chars

/-- The name as a string. -/
def Marked.text (w : Marked) : String :=
  String.ofList w.chars

/-- An operand without parentheses. -/
inductive Atom where
  | number (d : Digits)
  | text (q : Literal)
  | marked (w : Marked)
  | name (y : Mention)

/-- Text of an atom. -/
def Atom.chars : Atom → List Char
  | number d => d.chars
  | text q => '"' :: (q.chars ++ ['"'])
  | marked w => '#' :: (w.chars ++ ['#'])
  | name y => y.chars

/-! ## Phrases -/

/-- What may stand behind the last operand: brackets may be closed there. -/
structure Ending where
  back : Fill behind
  brackets : Fill [']']
  tail : Fill blanks

/-- Text of an ending. -/
def Ending.chars (z : Ending) : List Char :=
  z.back.1 ++ (z.brackets.1 ++ z.tail.1)

mutual

/-- An operand: an atom, or a phrase in parentheses. -/
inductive Part where
  | atom (a : Atom)
  | group (p : Phrase)

/-- Operands with signs between them. -/
inductive Phrase where
  | last (front : Fill ahead) (i : Part) (z : Ending)
  | more (front : Fill ahead) (i : Part) (back : Fill behind) (sign : Sign) (rest : Phrase)

end

mutual

/-- Text of an operand. -/
def Part.chars : Part → List Char
  | .atom a => a.chars
  | .group p => '(' :: (p.chars ++ [')'])

/-- Text of a phrase. -/
def Phrase.chars : Phrase → List Char
  | .last front i z => front.1 ++ (i.chars ++ z.chars)
  | .more front i back sign rest =>
    front.1 ++ (i.chars ++ (back.1 ++ (sign.1.1 ++ rest.chars)))

end

mutual

/-- Number of groups in an operand. -/
def Part.pairs : Part → Nat
  | .atom _ => 0
  | .group p => 1 + p.pairs

/-- Number of groups in a phrase. -/
def Phrase.pairs : Phrase → Nat
  | .last _ i _ => i.pairs
  | .more _ i _ _ rest => i.pairs + rest.pairs

end

/-! ## Statements of a phrase -/

/-- What stands in the place of an operand when `n` groups were opened before it. -/
def Part.slot (n : Nat) : Part → List Char
  | .atom a => a.chars
  | .group _ => ' ' :: temporary n

/-- What is left of a phrase without its groups. -/
def Phrase.own (n : Nat) : Phrase → List Char
  | .last front i z => front.1 ++ (i.slot n ++ z.chars)
  | .more front i back sign rest =>
    front.1 ++ (i.slot n ++ (back.1 ++ (sign.1.1 ++ rest.own (n + i.pairs))))

mutual

/-- The statements of the groups in an operand, in the order in which they close. -/
def Part.pieces (n : Nat) : Part → List (List Char)
  | .atom _ => []
  | .group p => p.pieces (n + 1) ++ [temporary n ++ '=' :: p.own (n + 1)]

/-- The statements of the groups in a phrase. -/
def Phrase.pieces (n : Nat) : Phrase → List (List Char)
  | .last _ i _ => i.pieces n
  | .more _ i _ _ rest => i.pieces n ++ rest.pieces (n + i.pairs)

end

/-! ## Taking a line apart -/

theorem Fill.calm {set : List Char} (g : Fill set)
    (hset : set.all (fun c => !(['"', '(', ')'].contains c)) = true) : Calm g.1 := by
  refine calm_of_plain fun c hc => ?_
  rw [← Bool.not_eq_true']
  exact all_of_contains hset (g.2 c hc)

theorem Ending.calm (z : Ending) : Calm z.chars :=
  (z.back.calm (by decide)).append ((z.brackets.calm (by decide)).append (z.tail.calm (by decide)))

theorem Sign.calm (sign : Sign) : Calm sign.1.1 := by
  have hall : Operator.spellings.all
      (fun p => p.1.all fun c => !(['"', '(', ')'].contains c)) = true := by decide
  refine calm_of_plain fun c hc => ?_
  rw [← Bool.not_eq_true']
  exact List.all_eq_true.1 (List.all_eq_true.1 hall sign.1 sign.2) c hc

theorem calm_of_isWord {w : List Char} (hw : Structured.IsWord w) : Calm w :=
  calm_of_plain fun c hc => Structured.contains_of_isOrdinary (hw.2 c hc) (by decide)

theorem Atom.calm (a : Atom) : Calm a.chars := by
  have hmark : Calm ['#'] := calm_of_plain (by simp)
  cases a with
  | number d => exact calm_of_isWord d.isWord
  | text q => exact calm_quoted q.inside
  | marked w => exact hmark.append (w.calm.append hmark)
  | name y => exact y.calm

mutual

theorem Part.leads (i : Part) (finished around : List (List Char)) (current : List Char)
    (opened : Nat) :
    Leads i.chars (halfway finished around current opened)
      (halfway ((i.pieces opened).reverse ++ finished) around
        ((i.slot opened).reverse ++ current) (opened + i.pairs)) := by
  match i with
  | .atom a => exact leads_calm _ _ _ _ a.calm
  | .group p =>
    have hinner := (leads_open finished around current opened).append (p.leads _ _ _ _)
    have hwhole := hinner.append (leads_close _ _ _ _ _)
    have hpieces : ((p.own (opened + 1)).reverse ++ '=' :: (temporary opened).reverse).reverse ::
        ((p.pieces (opened + 1)).reverse ++ finished) =
          ((Part.group p).pieces opened).reverse ++ finished := by
      simp [Part.pieces]
    have hslot : (temporary opened).reverse ++ ' ' :: current =
        ((Part.group p).slot opened).reverse ++ current := by
      simp [Part.slot]
    have hpairs : opened + 1 + p.pairs = opened + (Part.group p).pairs := by
      simp only [Part.pairs]
      omega
    rw [hpieces, hslot, hpairs] at hwhole
    exact hwhole

/-- The text of a phrase: the statements of its groups are finished, and their temporaries
stand in their places. -/
theorem Phrase.leads (p : Phrase) (finished around : List (List Char)) (current : List Char)
    (opened : Nat) :
    Leads p.chars (halfway finished around current opened)
      (halfway ((p.pieces opened).reverse ++ finished) around
        ((p.own opened).reverse ++ current) (opened + p.pairs)) := by
  match p with
  | .last front i z =>
    have hfront := leads_calm finished around current opened (front.calm (by decide))
    have hwhole := hfront.append ((i.leads _ _ _ _).append (leads_calm _ _ _ _ z.calm))
    simpa [Phrase.chars, Phrase.own, Phrase.pieces, Phrase.pairs] using hwhole
  | .more front i back sign rest =>
    have hfront := leads_calm finished around current opened (front.calm (by decide))
    have hback := leads_calm ((i.pieces opened).reverse ++ finished) around
      ((i.slot opened).reverse ++ (front.1.reverse ++ current)) (opened + i.pairs)
      ((back.calm (by decide)).append (Sign.calm sign))
    have hwhole := hfront.append ((i.leads _ _ _ _).append (hback.append (rest.leads _ _ _ _)))
    simpa [Phrase.chars, Phrase.own, Phrase.pieces, Phrase.pairs, Nat.add_assoc] using hwhole

end

/-- The line that updates a variable with a phrase. -/
def updateLine (x : Mention) (gap : Fill blanks) (how : Assignment) (p : Phrase) : List Char :=
  x.chars ++ (gap.1 ++ (spelling how ++ p.chars))

/-- The statement of the variable itself. -/
def ownStatement (x : Mention) (gap : Fill blanks) (how : Assignment) (p : Phrase) : List Char :=
  x.chars ++ (gap.1 ++ (spelling how ++ p.own 0))

/-- A line that updates a variable is taken apart into the statements of the groups and the
one of the variable. -/
theorem statements_update (x : Mention) (gap : Fill blanks) (how : Assignment) (p : Phrase) :
    Source.statements "$" (updateLine x gap how p) =
      .ok (p.pieces 0 ++ [ownStatement x gap how p]) := by
  have hspelling : Calm (spelling how) :=
    calm_of_plain (by cases how <;> simp [spelling])
  have hfront : Calm (x.chars ++ (gap.1 ++ spelling how)) :=
    x.calm.append ((gap.calm (by decide)).append hspelling)
  have htext : updateLine x gap how p = (x.chars ++ (gap.1 ++ spelling how)) ++ p.chars := by
    simp [updateLine]
  obtain ⟨column, hfold⟩ := ((leads_calm [] [] [] 0 hfront).append (p.leads _ _ _ _)) 0
  unfold Source.statements
  rw [htext, show ({} : Source.Grouping) = { halfway [] [] [] 0 with column := 0 } from rfl, hfold]
  simp [bind, Except.bind, pure, Except.pure, halfway, ownStatement]

end ScriptMachine.Phrases
