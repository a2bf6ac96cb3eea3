/-
  ScriptMachine.Compiler.State

  The state of a compile run.  Several scripts may be compiled into one program,
  and what a script has changed before it fails stays changed; so the compiler
  runs in a monad that keeps the state of a failed step.
-/

import ScriptMachine.Compiler.Expression
import ScriptMachine.Scope.Fixups
import ScriptMachine.Stack

namespace ScriptMachine

/-- Settings of a compile run. -/
structure Config where
  /-- What the names of temporaries start with. -/
  stem : String := "$"
  /-- String literals are shorter than this many bytes. -/
  maxString : Nat := 250
  /-- Open `choose` blocks allowed inside one level of `if`. -/
  maxSwitchInIf : Nat := 30
  /-- Blocks allowed in one run. -/
  maxBlocks : Nat := 0xFFFFFF
  /-- Whether a listing is written. -/
  listing : Bool := true

/-- A compile run. -/
structure Compiler where
  config : Config
  symbols : Symbols := .initial
  program : Program
  blocks : Blocks
  /-- Jump operands waiting for their addresses, in the order of writing. -/
  fixups : Array Fixup := #[]
  /-- Functions that may not be called inside an open block. -/
  blockChecked : List UInt16 := []
  /-- The words that opened the structures still open. -/
  structures : Stack Word := ⟨"BLOCKS NESTED TOO DEEPLY", "BLOCK MISMATCH", #[]⟩
  /-- Inside the body of a case. -/
  inCase : Bool := false
  /-- Ends of the open `choose` blocks. -/
  switchEnds : Stack Label := ⟨"CHOOSE NESTED TOO DEEPLY", "BREAK WITHOUT CHOOSE", #[]⟩
  /-- Open `choose` blocks per level of `if`, innermost level first. -/
  switchesInIf : List Nat := [0]
  ifDepth : Nat := 0
  switchDepth : Nat := 0
  /-- End of the innermost `while` block. -/
  whileEnd : Option Label := none
  /-- Ends of the `while` blocks around it. -/
  whileEnds : Stack (Option Label) := ⟨"WHILE NESTED TOO DEEPLY", "ENDWHILE WITHOUT WHILE", #[]⟩
  /-- The file compiled last. -/
  file : String := ""
  /-- The diagnostics reported so far. -/
  diagnostics : Array String := #[]

/-- A step of the compiler. -/
abbrev Compile := EStateM Error Compiler

namespace Compiler

/-- The start of a compile run. -/
def ofConfig (config : Config) : Compiler :=
  { config
    program := { listing := { enabled := config.listing } }
    blocks := { limit := config.maxBlocks } }

/-- Directly inside a `choose` and outside the body of a case, only the words
that go on with the `choose` are legal; `none` stands for a call. -/
def checkSwitch (c : Compiler) (word : Option Word) : Except Error Unit :=
  if c.inCase ∨ c.structures.top? ≠ some .choose then .ok ()
  else
    match word with
    | some .caseOf | some .default | some .endChoose => .ok ()
    | some word => .error (.of (.wordOutsideCase word))
    | none => .error (.of .callOutsideCase)

/-- A function may be called here. -/
def mayCall (c : Compiler) (code : UInt16) : Except Error Unit := do
  c.checkSwitch none
  if c.blockChecked.contains code && !c.blocks.isComplete then
    throw (.of (.callInsideBlock code c.blocks.info))

/-- What expressions are compiled against. -/
def context (c : Compiler) : Context :=
  { symbols := c.symbols, maxString := c.config.maxString, mayCall := c.mayCall }

end Compiler

namespace Compile

variable {α : Type}

/-! ## Steps on parts of the state -/

/-- A result without a change. -/
def ofExcept (x : Except Error α) : Compile α := fun c =>
  match x with
  | .ok a => .ok a c
  | .error e => .error e c

/-- Asks the state. -/
def ask (f : Compiler → Except Error α) : Compile α := fun c =>
  match f c with
  | .ok a => .ok a c
  | .error e => .error e c

/-- Writes a draft into the program. -/
def emit (f : Context → Draft α) : Compile α := fun c =>
  let d := f c.context
  let c := { c with program := c.program.writeAll d.items }
  match d.outcome with
  | .ok a => .ok a c
  | .error e => .error e c

/-- Appends a comment to the listing. -/
def comment (s : String) : Compile Unit := fun c =>
  .ok () { c with program := c.program.comment s }

/-- Changes the symbols. -/
def onSymbols (f : Symbols → Except Error Symbols) : Compile Unit := fun c =>
  match f c.symbols with
  | .ok symbols => .ok () { c with symbols }
  | .error e => .error e c

/-- Changes the blocks at the address of the next item, and notes the label that
was reached. -/
def onBlocks (word : Word) (f : Blocks → Nat → Except Error (Label × Blocks)) : Compile Unit :=
  fun c =>
    match f c.blocks c.program.position with
    | .ok (label, blocks) =>
      .ok () { c with
        blocks
        program := c.program.comment (word.spelling ++ " " ++ label.text) }
    | .error e => .error e c

/-- A step on one of the stacks of the state. -/
def onStack {β : Type} (stack : Compiler → Stack β) (put : Compiler → Stack β → Compiler)
    (x : EStateM Error (Stack β) α) : Compile α := fun c =>
  match x (stack c) with
  | .ok a s => .ok a (put c s)
  | .error e s => .error e (put c s)

/-- A step on the open structures. -/
def onStructures (x : EStateM Error (Stack Word) α) : Compile α :=
  onStack (·.structures) (fun c structures => { c with structures }) x

/-- A step on the ends of `choose` blocks. -/
def onSwitchEnds (x : EStateM Error (Stack Label) α) : Compile α :=
  onStack (·.switchEnds) (fun c switchEnds => { c with switchEnds }) x

/-- A step on the ends of outer `while` blocks. -/
def onWhileEnds (x : EStateM Error (Stack (Option Label)) α) : Compile α :=
  onStack (·.whileEnds) (fun c whileEnds => { c with whileEnds }) x

/-! ## Jumps -/

/-- Writes a jump operand whose address is filled in later. -/
def jumpTo (label : Label) : Compile Unit := fun c =>
  let fixups := c.fixups.push ⟨c.program.position, label⟩
  .ok () { c with fixups, program := c.program.write (.num (Int64.ofNat label.packed)) }

/-- Writes a jump. -/
def goto (label : Label) : Compile Unit := do
  emit fun _ => Draft.put (.code .goto)
  jumpTo label

end Compile

end ScriptMachine
