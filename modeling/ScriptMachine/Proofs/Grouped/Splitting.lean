/-
  ScriptMachine.Proofs.Grouped.Splitting

  Arithmetic with parentheses.  A tree of operators is written with every operation in
  parentheses of its own, and a line that assigns it is taken apart into one statement
  for each operation and a last one for the variable (`statements_line`).  Operations
  are numbered in the order in which their parentheses open, and their statements come
  in the order in which they close.
-/

import ScriptMachine.Proofs.Structured.Lexing

namespace ScriptMachine.Grouped

open Structured (Digits Sign Flat IsWord)

/-! ## Trees -/

/-- A name that is no temporary, and whose parentheses, if any, are inside strings. -/
structure Variable where
  chars : List Char
  nonempty : chars ≠ []
  flat : Flat chars
  permanent : ∀ c ∈ chars.head?, c ≠ '$'

/-- The name as a string. -/
def Variable.text (x : Variable) : String :=
  String.ofList x.chars

/-- As an operand the name is read as a whole, and neither as a number nor as a string or
the mark of a constant. -/
structure Variable.Readable (x : Variable) : Prop where
  whole : ∀ c ∈ x.chars, operandStop.contains c = false
  notDigits : Text.isDigits x.chars = false
  unmarked : ∀ c ∈ x.chars.head?, ['"', '#'].contains c = false

/-- A tree of operators over numbers and variables. -/
inductive Tree where
  | number (d : Digits)
  | var (x : Variable) (h : x.Readable)
  | node (sign : Sign) (l r : Tree)

namespace Tree

/-- Text of a tree, with each operation in parentheses. -/
def chars : Tree → List Char
  | number d => d.chars
  | var x _ => x.chars
  | node sign l r => '(' :: (l.chars ++ ' ' :: (sign.1.1 ++ ' ' :: (r.chars ++ [')'])))

/-- Number of operations, each of which has a pair of parentheses. -/
def pairs : Tree → Nat
  | number _ | var .. => 0
  | node _ l r => 1 + l.pairs + r.pairs

/-- The variables of a tree. -/
def vars : Tree → List Variable
  | number _ => []
  | var x _ => [x]
  | node _ l r => l.vars ++ r.vars

end Tree

/-- The line that assigns a tree to a variable. -/
def assignmentLine (x : Variable) (t : Tree) : List Char :=
  x.chars ++ ' ' :: '=' :: ' ' :: t.chars

/-! ## Statements of a tree -/

/-- Name of the `n`-th temporary. -/
def temporary (n : Nat) : List Char :=
  Source.Grouping.temporary "$" n

/-- Name of the `n`-th temporary as a string. -/
def temporaryName (n : Nat) : String :=
  String.ofList (temporary n)

namespace Tree

/-- What stands in the place of a tree when `n` groups have been opened before it. -/
def slot (n : Nat) : Tree → List Char
  | number d => d.chars
  | var x _ => x.chars
  | node .. => ' ' :: temporary n

/-- Right side of the statement for an operation. -/
def operation (n : Nat) (sign : Sign) (l r : Tree) : List Char :=
  l.slot (n + 1) ++ ' ' :: (sign.1.1 ++ ' ' :: r.slot (n + 1 + l.pairs))

/-- The statements for the operations of a tree, in the order in which they close. -/
def pieces (n : Nat) : Tree → List (List Char)
  | number _ | var .. => []
  | node sign l r => l.pieces (n + 1) ++ (r.pieces (n + 1 + l.pairs) ++
      [temporary n ++ '=' :: operation n sign l r])

end Tree

/-! ## Taking a line apart -/

/-- A line being taken apart, outside of strings and at its first column. -/
def halfway (finished around : List (List Char)) (current : List Char) (opened : Nat) :
    Source.Grouping :=
  { finished, around, current, opened }

/-- Reading `cs` leads from one state of a line to another, whatever the column. -/
def Leads (cs : List Char) (g g' : Source.Grouping) : Prop :=
  ∀ column, ∃ column', cs.foldlM (Source.Grouping.next "$") { g with column } =
    .ok { g' with column := column' }

theorem Leads.append {cs ds : List Char} {g g' g'' : Source.Grouping} (h : Leads cs g g')
    (k : Leads ds g' g'') : Leads (cs ++ ds) g g'' := by
  intro column
  obtain ⟨column', h⟩ := h column
  obtain ⟨column'', k⟩ := k column'
  refine ⟨column'', ?_⟩
  rw [List.foldlM_append, h]
  exact k

section
variable (finished around : List (List Char)) (current : List Char) (opened : Nat)

theorem leads_flat {cs : List Char} (h : Flat cs) :
    Leads cs (halfway finished around current opened)
      (halfway finished around (cs.reverse ++ current) opened) :=
  fun column => h.foldlM "$" { halfway finished around current opened with column } rfl

/-- An opening parenthesis starts the statement of the next temporary. -/
theorem leads_open :
    Leads ['('] (halfway finished around current opened)
      (halfway finished (((temporary opened).reverse ++ ' ' :: current) :: around)
        ('=' :: (temporary opened).reverse) (opened + 1)) :=
  fun column => ⟨column + '('.utf8Size, rfl⟩

/-- A closing parenthesis finishes the statement of the innermost group. -/
theorem leads_close (outer : List Char) :
    Leads [')'] (halfway finished (outer :: around) current opened)
      (halfway (current.reverse :: finished) around outer opened) :=
  fun column => ⟨column + ')'.utf8Size, rfl⟩

end

theorem flat_of_isWord {w : List Char} (hw : IsWord w) : Flat w := by
  have hflat := Flat.word_append hw .nil
  rwa [List.append_nil] at hflat

theorem flat_append {cs ds : List Char} (h : Flat cs) (k : Flat ds) : Flat (cs ++ ds) := by
  induction h with
  | nil => exact k
  | char hc _ ih => exact .char hc ih
  | slash hc _ ih => exact .slash hc ih
  | quoted hi _ ih =>
    rw [List.cons_append, List.append_assoc]
    exact .quoted hi ih

/-- The text of a tree: its statements are finished, and its slot stands in its place. -/
theorem Tree.leads (t : Tree) (finished around : List (List Char)) (current : List Char)
    (opened : Nat) :
    Leads t.chars (halfway finished around current opened)
      (halfway ((t.pieces opened).reverse ++ finished) around
        ((t.slot opened).reverse ++ current) (opened + t.pairs)) := by
  induction t generalizing finished around current opened with
  | number d => exact leads_flat _ _ _ _ (flat_of_isWord d.isWord)
  | var x h => exact leads_flat _ _ _ _ x.flat
  | node sign l r ihl ihr =>
    have hsign : Flat (' ' :: (sign.1.1 ++ [' '])) := (Flat.nil.sign sign).blank
    have hleft := (leads_open finished around current opened).append (ihl _ _ _ _)
    have hright := (hleft.append (leads_flat _ _ _ _ hsign)).append (ihr _ _ _ _)
    have hwhole := hright.append (leads_close _ _ _ _ _)
    have hsplit : chars (node sign l r) =
        ['('] ++ l.chars ++ ' ' :: (sign.1.1 ++ [' ']) ++ r.chars ++ [')'] := by
      simp [chars]
    have hpieces : (pieces opened (node sign l r)).reverse ++ finished =
        (((r.slot (opened + 1 + l.pairs)).reverse ++ ((' ' :: (sign.1.1 ++ [' '])).reverse ++
          ((l.slot (opened + 1)).reverse ++ '=' :: (temporary opened).reverse))).reverse) ::
          ((r.pieces (opened + 1 + l.pairs)).reverse ++
            ((l.pieces (opened + 1)).reverse ++ finished)) := by
      simp [pieces, operation]
    have hslot : (slot opened (node sign l r)).reverse ++ current =
        (temporary opened).reverse ++ ' ' :: current := by
      simp [slot]
    have hpairs : opened + pairs (node sign l r) = opened + 1 + l.pairs + r.pairs := by
      simp only [pairs]
      omega
    rw [hsplit, hpieces, hslot, hpairs]
    exact hwhole

/-- A line that assigns a tree is taken apart into the statements of the tree and the one
of the variable. -/
theorem statements_line (x : Variable) (t : Tree) :
    Source.statements "$" (assignmentLine x t) =
      .ok (t.pieces 0 ++ [x.chars ++ ' ' :: '=' :: ' ' :: t.slot 0]) := by
  have hfront : Flat (x.chars ++ [' ', '=', ' ']) :=
    flat_append x.flat (.char (by decide) (.char (by decide) (.char (by decide) .nil)))
  have htext : assignmentLine x t = x.chars ++ [' ', '=', ' '] ++ t.chars := by
    simp [assignmentLine]
  obtain ⟨column, hfold⟩ := ((leads_flat [] [] [] 0 hfront).append (t.leads _ _ _ _)) 0
  unfold Source.statements
  rw [htext, show ({} : Source.Grouping) = { halfway [] [] [] 0 with column := 0 } from rfl, hfold]
  simp [bind, Except.bind, pure, Except.pure, halfway]

end ScriptMachine.Grouped
