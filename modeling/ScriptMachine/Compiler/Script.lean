/-
  ScriptMachine.Compiler.Script

  Compiling scripts.  A script is compiled line by line; a line is taken apart
  into statements, and each statement is a command, a call or an assignment.
  Tables of names are loaded line by line too.  `finish` ends the program and
  fills in all jumps.
-/

import ScriptMachine.Compiler.Command
import ScriptMachine.Source.Grouping
import ScriptMachine.Source.Lines

namespace ScriptMachine

namespace Compile

variable {α : Type}

/-! ## Diagnostics -/

/-- Reports an error in the listing and among the diagnostics. -/
def report (c : Compiler) (e : Error) : Compiler :=
  let message := e.render
  { c with
    program := { c.program with listing := c.program.listing.error message }
    diagnostics := c.diagnostics.push message }

/-- Reports the error of a step, worded by `f`. -/
def reporting (f : Error → Error) (x : Compile α) : Compile α := fun c =>
  match x c with
  | .ok a c => .ok a c
  | .error e c => .error (f e) (report c (f e))

/-- Reports the error of a step on a line of a file. -/
def onLine (file : String) (number : Nat) (line : List Char) (x : Compile α) : Compile α :=
  reporting (fun e => ((e.inFile file).onLine (some number)).withText (String.ofList line)) x

/-- Names the statement in the error of a step. -/
def inFragment (statement : List Char) (x : Compile α) : Compile α := fun c =>
  match x c with
  | .ok a c => .ok a c
  | .error e c => .error (e.inFragment (String.ofList statement)) c

/-! ## Lines -/

/-- The characters that end the first word of a line. -/
def headStop : List Char := [' ', '\t', '(', '=', '+', '-', '*', '/', '[']

/-- A name that becomes a variable without being declared. -/
def isAutoVariable (config : Config) (name : String) : Bool :=
  ['$'].isPrefixOf name.toList || config.stem.toList.isPrefixOf name.toList

/-- The first word of a line, if the line is not blank. -/
def head? (stop : List Char) (line : List Char) : Compile (Option (String × Scanner)) :=
  let s := (Scanner.ofLine line).skip blanks
  match s.word? stop with
  | none => return none
  | some ([], s) =>
    throw ((Error.of (.unexpectedText (String.ofList s.rest))).inColumns s.offset (s.offset + 1))
  | some (head, s) => return some (String.ofList head, s)

/-- Compiles one statement. -/
def statement (text : List Char) : Compile Unit := do
  match ← head? ('%' :: headStop) text with
  | none => return
  | some (head, s) =>
    let c ← get
    if !c.symbols.contains head && isAutoVariable c.config head then
      onSymbols (·.set head .var)
    match (← get).symbols.get? head with
    | some (.command word) => command word s
    | some (.function code params) => do
      let _ ← emit (·.call code params s)
    | some .var => emit (·.assignment head s)
    | some (.constant _) => throw (.of (.constantStatement head))
    | none => throw (.of (.undefined head))

/-- Compiles one line: the bookkeeping of its command word, then its
statements. -/
def line (text : List Char) : Compile Unit := do
  match ← head? headStop text with
  | none => return
  | some (head, _) =>
    match (← get).symbols.get? head with
    | some (.command word) =>
      ask (·.checkSwitch (some word))
      control word
    | some _ => pure ()
    | none =>
      if isAutoVariable (← get).config head then pure () else throw (.of (.undefined head))
    let statements ← ofExcept (Source.statements (← get).config.stem text)
    let whole := Text.trim text
    statements.forM fun s =>
      if Text.trim s = whole then statement s else inFragment s (statement s)

/-- Compiles lines from a line number on. -/
def lines (file : String) : (number : Nat) → List (List Char) → Compile Unit
  | _, [] => pure ()
  | number, text :: rest => do
    onLine file number text (line text)
    lines file (number + 1) rest

/-- Compiles a script. -/
def script (file source : String) : Compile Unit := do
  modify fun c => { c with file }
  comment ("load " ++ file)
  lines file 1 (Source.lines source)

/-! ## Tables of names -/

/-- Numbers the names of a line from `counter` on; a name that starts with `//`
ends the line. -/
def enumNames (counter : Int64) (s : Scanner) : Compile Int64 :=
  match hw : (s.skip (',' :: blanks)).word? (',' :: blanks) with
  | none => return counter
  | some (word, t) =>
    if hne : word = [] then return counter
    else if ['/', '/'].isPrefixOf word then return counter
    else do
      onSymbols (·.set (String.ofList word) (.constant (.number counter)))
      enumNames (counter + 1) t
termination_by s.rest.length
decreasing_by
  exact Nat.lt_of_lt_of_le (Scanner.length_word_lt hw hne) (Scanner.length_skip_le _ s)

/-- A signed number of 64 bits that a table gives. -/
def tableNumber (word : Option (List Char × Scanner)) : Compile Int64 :=
  let word := (word.map (·.1)).getD []
  match Text.readInt64? word with
  | some n => return n
  | none => throw (.of (.notNumber (String.ofList word)))

/-- One line of an enumeration: a comment, a new start for the counter, or names
to number. -/
def enumLine (counter : Int64) (text : List Char) : Compile Int64 :=
  let s := (Scanner.ofLine text).skip blanks
  match s.rest with
  | ';' :: _ => return counter
  | '#' :: _ => tableNumber (((s.skip ['#']).skip blanks).word? blanks)
  | _ => enumNames counter s

/-- The lines of an enumeration from a line number on. -/
def enumLines (file : String) : (number : Nat) → Int64 → List (List Char) → Compile Unit
  | _, _, [] => pure ()
  | number, counter, text :: rest => do
    let counter ← onLine file number text (enumLine counter text)
    enumLines file (number + 1) counter rest

/-- Loads an enumeration: names become constants, numbered in order. -/
def loadEnum (file source : String) : Compile Unit := do
  modify fun c => { c with file }
  enumLines file 1 0 (Source.splitFeeds source.toList)

/-- One line of a table of constants: a name and its number. -/
def tableLine (text : List Char) : Compile Unit :=
  match ((Scanner.ofLine text).skip blanks).word? blanks with
  | some (c :: cs, s) => do
    let n ← tableNumber ((s.skip blanks).word? blanks)
    onSymbols (·.set (String.ofList (c :: cs)) (.constant (.number n)))
  | _ => pure ()

/-- The lines of a table of constants from a line number on. -/
def tableLines (file : String) : (number : Nat) → List (List Char) → Compile Unit
  | _, [] => pure ()
  | number, text :: rest => do
    onLine file number text (tableLine text)
    tableLines file (number + 1) rest

/-- Loads a table of constants. -/
def loadTable (file source : String) : Compile Unit := do
  modify fun c => { c with file }
  tableLines file 1 (Source.splitFeeds source.toList)

/-! ## The end of a program -/

/-- The word that closes what a word opened. -/
def closer : Word → Word
  | .whileDo => .endWhile
  | .choose => .endChoose
  | _ => .endIf

/-- Fills in the addresses of all jumps. -/
def resolve : Compile Unit := fun c =>
  let fixups := c.fixups.toList
  let blocks := c.blocks
  match resolveFixups blocks fixups c.program with
  | .ok () program => .ok () { c with program, fixups := #[] }
  | .error e program => .error e { c with program, fixups := #[] }

/-- Ends the program with a `stop` and fills in all jumps. -/
def finish : Compile Program := do
  let file := (← get).file
  reporting (·.inFile file) do
    ask fun c =>
      match c.structures.top? with
      | some opened => .error (.of (.unclosed opened (closer opened)))
      | none => .ok ()
    comment "link"
    emit fun _ => Draft.put (.code .stop)
    resolve
  modify fun c => { c with program := c.program.comment c.program.code.summary }
  return (← get).program

end Compile

/-- Compiles one script into a finished program. -/
def compile (file source : String) : Except Error Program :=
  let x : Compile Program := do
    Compile.script file source
    Compile.finish
  match x (Compiler.ofConfig {}) with
  | .ok p _ => .ok p
  | .error e _ => .error e

end ScriptMachine
