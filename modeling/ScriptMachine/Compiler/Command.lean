/-
  ScriptMachine.Compiler.Command

  The command words.  A control word does its work in two parts: the bookkeeping
  of blocks (`control`) comes before anything of its line is written, so that the
  targets of jumps lie in front of the line; the instructions of the word itself
  (`command`) come when its statement is reached.
-/

import ScriptMachine.Compiler.State

namespace ScriptMachine.Compile

/-! ## Bookkeeping of blocks -/

/-- The innermost structure must have been opened by `opener`. -/
def expectStructure (opener word : Word) : Compile Unit :=
  ask fun c =>
    match c.structures.top? with
    | some opened =>
      if opened = opener then .ok () else .error (.of (.insideOther word opened))
    | none => .error (.of (.withoutOpener word opener))

/-- Takes the next step of the innermost block. -/
def linkBlock (word : Word) : Compile Unit :=
  onBlocks word Blocks.link

/-- Opens a block; a `choose` enters the structures later, when its value is
written. -/
def openBlock (word : Word) : Compile Unit := do
  onBlocks word Blocks.start
  if word ≠ .choose then onStructures (Stack.push word)

/-- Ends one branch of an `if` and starts the next. -/
def nextBranch (word : Word) : Compile Unit := do
  expectStructure .ifThen word
  goto (← ask (·.blocks.endLabel))
  linkBlock word

/-- Starts the next clause of a `choose`. -/
def nextClause (word : Word) : Compile Unit := do
  expectStructure .choose word
  linkBlock word

/-- Jumps to the end of the innermost `choose`. -/
def breakChoose : Compile Unit := do
  let label ← ask fun c =>
    match c.switchEnds.top? with
    | some label => .ok label
    | none => .error (.of .breakWithoutChoose)
  goto label

/-- Closes the block that `opener` opened. -/
def closeBlock (opener word : Word) : Compile Unit := do
  expectStructure opener word
  if word = .endWhile then goto (← ask (·.blocks.startLabel))
  linkBlock word
  onBlocks word Blocks.close
  let _ ← onStructures Stack.pop
  if word = .endChoose then
    let _ ← onSwitchEnds Stack.pop

/-- The bookkeeping of a control word. -/
def control (word : Word) : Compile Unit :=
  match word with
  | .ifThen | .whileDo | .choose => openBlock word
  | .elseIf | .otherwise => nextBranch word
  | .caseOf | .default => nextClause word
  | .breakOut => breakChoose
  | .endIf => closeBlock .ifThen word
  | .endWhile => closeBlock .whileDo word
  | .endChoose => closeBlock .choose word
  | _ => pure ()

/-! ## Conditions and loops -/

/-- A value at the end of a line for an instruction that may go on at the next step. -/
def testValue (opcode : Opcode) (missing : Cause) (s : Scanner) : Compile Unit := do
  emit (·.lastValue opcode missing s)
  jumpTo (← ask (·.blocks.nextLabel))

/-- The condition of an `if` or `elseif`: when false, go on at the next step. -/
def condition (word : Word) (s : Scanner) : Compile Unit :=
  testValue .cmp (.missingCondition word) s

/-- Enters a level of `if`. -/
def enterIf (s : Scanner) : Compile Unit := do
  condition .ifThen s
  modify fun c => { c with ifDepth := c.ifDepth + 1, switchesInIf := 0 :: c.switchesInIf }

/-- Leaves a level of `if`. -/
def leaveIf : Compile Unit :=
  modify fun c =>
    { c with
      ifDepth := c.ifDepth - 1
      switchesInIf := if 1 < c.switchesInIf.length then c.switchesInIf.tail else c.switchesInIf }

/-- Enters a loop: when its condition is false, go on behind it. -/
def enterWhile (s : Scanner) : Compile Unit := do
  onWhileEnds (Stack.push (← get).whileEnd)
  emit (·.lastValue .cmp (.missingCondition .whileDo) s)
  let label ← ask (·.blocks.endLabel)
  modify fun c => { c with whileEnd := some label }
  jumpTo label

/-- Leaves a loop at its end. -/
def leaveWhile : Compile Unit := do
  let label ← onWhileEnds Stack.pop
  modify fun c => { c with whileEnd := label }

/-- Jumps to the end of the innermost loop. -/
def exitWhile : Compile Unit := do
  match (← get).whileEnd with
  | some label => goto label
  | none => throw (.of .exitWithoutWhile)

/-! ## Choices -/

/-- Counts a `choose` inside the current level of `if`. -/
def countSwitch : Compile Unit := do
  let c ← get
  if 0 < c.ifDepth then
    match c.switchesInIf with
    | count :: counts =>
      if c.config.maxSwitchInIf ≤ count then throw (.of (.tooManySwitches c.config.maxSwitchInIf))
      else modify fun c => { c with switchesInIf := (count + 1) :: counts }
    | [] => pure ()

/-- Saves the value under test and sets it anew. -/
def enterChoose (s : Scanner) : Compile Unit := do
  emit fun ctx => do
    Draft.put (.code .push)
    Draft.put (.var caseName)
    Draft.put (.code .mov)
    Draft.put (.var caseName)
    match ← ctx.value s with
    | .found t _ => Draft.ofExcept t.expectEnd
    | .absent .. => Draft.fail (.of (.missingValueAfter .choose))
  onSymbols fun symbols =>
    if symbols.contains caseName then .ok symbols else symbols.set caseName .var
  onSwitchEnds (Stack.push (← ask (·.blocks.endLabel)))
  onStructures (Stack.push .choose)
  countSwitch
  modify fun c => { c with switchDepth := c.switchDepth + 1, inCase := false }

/-- Starts a case: without a match, go on at the next step. -/
def enterCase (s : Scanner) : Compile Unit := do
  testValue .case (.missingValueAfter .caseOf) s
  modify fun c => { c with inCase := true }

/-- Leaves the body of a case, unless the `choose` lies inside another. -/
def leaveCase : Compile Unit :=
  modify fun c => { c with inCase := if c.switchDepth = 1 then false else c.inCase }

/-- Restores the value under test. -/
def leaveChoose : Compile Unit := do
  ask fun c => if c.switchDepth = 0 then .error (.of .endChooseWithoutChoose) else .ok ()
  modify fun c =>
    { c with
      switchDepth := c.switchDepth - 1
      switchesInIf :=
        if 0 < c.ifDepth then
          match c.switchesInIf with
          | count :: counts => (count - 1) :: counts
          | [] => []
        else c.switchesInIf
      inCase := 1 < c.switchDepth }
  emit fun _ => do
    Draft.put (.code .pop)
    Draft.put (.var caseName)

/-! ## Definitions -/

/-- A word that must not be missing or empty. -/
def required (missing : Cause) (word : Option (List Char × Scanner)) :
    Compile (String × Scanner) :=
  match word with
  | some (c :: cs, s) => return (String.ofList (c :: cs), s)
  | _ => throw (.of missing)

/-- Declares a variable and assigns to it. -/
def defineVariable (s : Scanner) : Compile Unit := do
  let (name, s) ← required .missingVariableName ((s.skip blanks).word? ('=' :: blanks))
  onSymbols (·.set name .var)
  comment ("var " ++ name)
  emit (·.assignment name s)

/-- A number, or a constant that may be followed by `++` or `--`.  The constant
itself is stepped; its value before that is the result. -/
def constantValue (s : Scanner) : Compile (Constant × Scanner) := do
  let (word, s) ← required .missingConstantValue ((s.skip blanks).word? (blanks ++ ['+', '-']))
  if Text.isDigits word.toList then
    match Text.readInt64? word.toList with
    | some n => return (.number n, s)
    | none => throw (.of (.numberOutOfRange word))
  else
    match (← get).symbols.get? word with
    | some (.constant constant) =>
      match s.operator? ['+', '-'] with
      | none => return (constant, s)
      | some (spelling, s) =>
        let step : Int64 ←
          match spelling with
          | ['+', '+'] => pure 1
          | ['-', '-'] => pure (-1)
          | _ => throw (.of (.stepAfterConstant (String.ofList spelling)))
        match constant with
        | .number n =>
          onSymbols fun symbols => .ok (symbols.insert word (.constant (.number (n + step))))
          return (constant, s)
        | .text _ => throw (.of (.constantNotNumeric word))
    | some _ => throw (.of (.notConstant word))
    | none => throw (.of (.undefined word))

/-- Defines a constant: a string literal, a number or another constant. -/
def defineConstant (s : Scanner) : Compile Unit := do
  let (name, s) ← required .missingConstantName ((s.skip blanks).word? blanks)
  let s := s.skip blanks
  let (constant, s) ←
    match s.rest with
    | '"' :: _ =>
      match s.delimited? '"' with
      | some (text, t) => pure (Constant.text (String.ofList text), t)
      | none => throw ((Error.of .unterminatedString).inColumns s.offset s.lineEnd)
    | _ => constantValue s
  ofExcept s.expectEnd
  comment ("define " ++ name ++ " " ++ constant.shown)
  onSymbols (·.set name (.constant constant))

/-- The number of a function: 16 bits. -/
def functionCode : Constant → Except Error UInt16
  | .number n =>
    if 0 ≤ n.toInt ∧ n.toInt < 65536 then .ok (UInt16.ofNat n.toInt.toNat)
    else .error (.of (.functionCodeRange n.toInt))
  | .text _ => .error (.of .functionCodeText)

/-- The mark, in any case, that forbids a function inside open blocks. -/
def blockCheckMark : List Char :=
  ['b', 'l', 'o', 'c', 'k', 'c', 'h', 'e', 'c', 'k']

/-- Declares a function: its name, its shape, its number and an optional mark. -/
def declareFunction (s : Scanner) : Compile Unit := do
  let (name, s) ← required .missingFunctionName ((s.skip blanks).word? blanks)
  let (shape, s) ← required .missingShape ((s.skip blanks).word? blanks)
  let params ← ofExcept (Param.shape shape.toList)
  let (constant, s) ← constantValue s
  let code ← ofExcept (functionCode constant)
  let s := s.skip blanks
  let s ←
    match s.word? blanks with
    | some (mark, s) =>
      if mark.map Char.toLower = blockCheckMark then
        modify fun c => { c with blockChecked := c.blockChecked.insert code }
        pure s
      else throw (.of (.unexpectedText (String.ofList mark)))
    | none => pure s
  ofExcept s.expectEnd
  comment ("declare " ++ name ++ " " ++ shape ++ " " ++ toString code.toNat)
  onSymbols (·.set name (.function code params))

/-- Gives a symbol a second name. -/
def copySymbol (s : Scanner) : Compile Unit := do
  let (name, s) ← required .missingName ((s.skip blanks).word? blanks)
  let (existing, s) ← required .missingCopiedName ((s.skip blanks).word? blanks)
  ofExcept s.expectEnd
  comment ("defcmd " ++ name ++ " " ++ existing)
  onSymbols (·.copy name existing)

/-! ## Commands -/

/-- The instructions of a command word; the scanner stands behind the word. -/
def command (word : Word) (s : Scanner) : Compile Unit :=
  match word with
  | .block => ask fun c => .error (.of (.blockBreak c.blocks.info))
  | .stop => do
    emit fun _ => Draft.put (.code .stop)
    ofExcept s.expectEnd
  | .var => defineVariable s
  | .ifThen => enterIf s
  | .elseIf => condition .elseIf s
  | .otherwise => ofExcept s.expectEnd
  | .endIf => leaveIf
  | .declare => declareFunction s
  | .define => defineConstant s
  | .defineCommand => copySymbol s
  | .choose => enterChoose s
  | .caseOf => enterCase s
  | .breakOut => leaveCase
  | .default => modify fun c => { c with inCase := true }
  | .endChoose => leaveChoose
  | .whileDo => enterWhile s
  | .endWhile => leaveWhile
  | .exitWhile => exitWhile

end ScriptMachine.Compile
