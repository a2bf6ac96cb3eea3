/-
  ScriptMachine.Source.Grouping

  Parenthesised groups of a line, taken apart into statements.  The group opened
  by the `i`-th parenthesis becomes a statement of its own that assigns it to the
  temporary numbered `i`; in the text around it the group is replaced by a blank
  and the name of the temporary.  Statements come innermost first, in the order
  in which groups close, and what is left of the line comes last.  Parentheses
  inside strings are text.
-/

import ScriptMachine.Cause
import ScriptMachine.Text.Length

namespace ScriptMachine.Source

/-- A line being taken apart: statements finished, latest first; the texts around
the open groups, innermost first; the text of the innermost group.  All texts are
reversed. -/
structure Grouping where
  finished : List (List Char) := []
  around : List (List Char) := []
  current : List Char := []
  quoted : Bool := false
  opened : Nat := 0
  column : Nat := 0

namespace Grouping

/-- Name of the `n`-th temporary. -/
def temporary (stem : String) (n : Nat) : List Char :=
  stem.toList ++ Nat.toDigits 10 n

/-- Takes one character. -/
def next (stem : String) (g : Grouping) (c : Char) : Except Error Grouping :=
  let g := { g with column := g.column + c.utf8Size }
  if g.quoted then
    .ok { g with quoted := c != '"', current := c :: g.current }
  else if c = '"' then
    .ok { g with quoted := true, current := c :: g.current }
  else if c = '(' then
    let name := temporary stem g.opened
    .ok { g with
      opened := g.opened + 1
      around := (name.reverse ++ ' ' :: g.current) :: g.around
      current := '=' :: name.reverse }
  else if c = ')' then
    match g.around with
    | outer :: around =>
      .ok { g with finished := g.current.reverse :: g.finished, around, current := outer }
    | [] => .error ((Error.of .unbalancedParentheses).inColumns (g.column - 1) g.column)
  else
    .ok { g with current := c :: g.current }

end Grouping

/-- Takes a line apart into statements; temporaries are named `stem` and a
number. -/
def statements (stem : String) (line : List Char) : Except Error (List (List Char)) := do
  let g ← line.foldlM (Grouping.next stem) {}
  if g.around.isEmpty then
    return (g.current.reverse :: g.finished).reverse
  else
    throw ((Error.of .missingParenthesis).inColumns g.column g.column)

end ScriptMachine.Source
