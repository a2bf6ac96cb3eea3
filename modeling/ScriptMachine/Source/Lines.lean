/-
  ScriptMachine.Source.Lines

  Source text as lines without comments.  A line ends at a line feed, a carriage
  return or the pair of both; a last piece without a terminator counts when it
  is not empty.  Comments become blanks, so every character that stays keeps its
  place in its line, and line `n` of the result is line `n` of the source.

  The two loops collect their results in reverse, so that long lines and long
  sources need no stack.
-/

import ScriptMachine.Text.Blank

namespace ScriptMachine.Source

/-! ## Splitting into lines -/

/-- Splits the rest of a source; `line` and `lines` are what was read of the
current line and the lines before it, both reversed. -/
def splitFrom (line : List Char) (lines : List (List Char)) : List Char → List (List Char)
  | [] => (if line.isEmpty then lines else line.reverse :: lines).reverse
  | '\n' :: cs => splitFrom [] (line.reverse :: lines) cs
  | '\r' :: '\n' :: cs => splitFrom [] (line.reverse :: lines) cs
  | '\r' :: cs => splitFrom [] (line.reverse :: lines) cs
  | c :: cs => splitFrom (c :: line) lines cs

/-- The lines of a source, terminators removed. -/
def split (cs : List Char) : List (List Char) :=
  splitFrom [] [] cs

/-- Splits the rest of a source at line feeds; a carriage return right before a
line feed belongs to the terminator.  The two lists are as in `splitFrom`. -/
def splitFeedsFrom (line : List Char) (lines : List (List Char)) : List Char → List (List Char)
  | [] => (if line.isEmpty then lines else line.reverse :: lines).reverse
  | '\n' :: cs =>
    let line :=
      match line with
      | '\r' :: line => line
      | line => line
    splitFeedsFrom [] (line.reverse :: lines) cs
  | c :: cs => splitFeedsFrom (c :: line) lines cs

/-- The lines of a table of names, where only a line feed ends a line. -/
def splitFeeds (cs : List Char) : List (List Char) :=
  splitFeedsFrom [] [] cs

/-! ## Removing comments -/

/-- Where a character of a line stands. -/
inductive Region where
  | code
  | quoted
  | comment
  deriving DecidableEq, Repr

/-- Blanks out the comments of the rest of a line; `out` is the line so far,
reversed.  Gives the line, reversed, and the region at its end. -/
def blankFrom (region : Region) (out : List Char) : List Char → List Char × Region
  | [] => (out, region)
  | c :: cs =>
    match region, c, cs with
    | .comment, '*', '/' :: cs => blankFrom .code (' ' :: ' ' :: out) cs
    | .comment, _, cs => blankFrom .comment (' ' :: out) cs
    | .quoted, c, cs => blankFrom (if c = '"' then .code else .quoted) (c :: out) cs
    | .code, '"', cs => blankFrom .quoted ('"' :: out) cs
    | .code, '/', '/' :: _ => (out, .code)
    | .code, '/', '*' :: cs => blankFrom .comment (' ' :: ' ' :: out) cs
    | .code, c, cs => blankFrom .code (c :: out) cs

/-- One line without comments and without trailing blanks, and whether a block
comment is open at its end.  A string never goes on in the next line. -/
def cleanLine (inComment : Bool) (line : List Char) : List Char × Bool :=
  let (out, region) := blankFrom (if inComment then .comment else .code) [] line
  ((out.dropWhile Text.isBlank).reverse, region = .comment)

/-- Cleans lines in order, carrying open block comments along. -/
def cleanFrom (inComment : Bool) (done : List (List Char)) : List (List Char) → List (List Char)
  | [] => done.reverse
  | line :: lines =>
    let (line, inComment) := cleanLine inComment line
    cleanFrom inComment (line :: done) lines

/-- The lines of a script, comments blanked out. -/
def lines (source : String) : List (List Char) :=
  cleanFrom false [] (split source.toList)

end ScriptMachine.Source
