/-
  ScriptMachine.Cause

  What can go wrong.  Every failure of the compiler, the stream reader and the
  machine is one of these causes; `Cause.kind` classifies it and `Cause.message`
  words it.  A host may fail for reasons of its own and builds its errors itself.
-/

import ScriptMachine.Error
import ScriptMachine.Scope.Label
import ScriptMachine.Vocabulary.Opcode
import ScriptMachine.Vocabulary.Param
import ScriptMachine.Vocabulary.Word

namespace ScriptMachine

/-- The reasons for which compiling, reading or running fails. -/
inductive Cause where
  -- the form of a line
  | unbalancedParentheses
  | missingParenthesis
  | unterminatedString
  | missingClosingMark
  | missingOperand
  | notOperator (spelling : String)
  | notAssignment (spelling : String)
  | commandInExpression (name : String)
  | constantStatement (name : String)
  | unexpectedText (rest : String)
  | numberOutOfRange (digits : String)
  | notNumber (word : String)
  -- something a line lacks
  | missingName
  | missingVariableName
  | missingConstantName
  | missingConstantValue
  | missingFunctionName
  | missingShape
  | missingCopiedName
  | missingValueFor (name : String)
  | missingValueAfter (word : Word)
  | missingCondition (word : Word)
  | missingParameter (place : Nat) (param : Param)
  -- symbols
  | undefined (name : String)
  | undefinedConstant (name : String)
  | notConstant (name : String)
  | reserved (name : String)
  | notParameterType (letter : Char)
  | stepAfterConstant (spelling : String)
  | constantNotNumeric (name : String)
  | functionCodeRange (code : Int)
  | functionCodeText
  | stringTooLong (bytes : Nat)
  -- control blocks
  | noOpenBlock
  | insideOther (word opened : Word)
  | withoutOpener (word opener : Word)
  | breakWithoutChoose
  | endChooseWithoutChoose
  | exitWithoutWhile
  | unclosed (opened closer : Word)
  | tooManyBlocks (limit : Nat)
  | tooManySteps (block : Nat)
  | tooManySwitches (limit : Nat)
  | wordOutsideCase (word : Word)
  | callOutsideCase
  | callInsideBlock (code : UInt16) (info : String)
  | blockBreak (info : String)
  -- the instruction stream
  | endOfCode (wanted position size : Nat)
  | unknownTag (byte : UInt8)
  | unexpectedTag (expected : Tag) (found : UInt8)
  | unknownOpcode (byte : UInt8)
  | unknownOperator (byte : UInt8)
  | unknownParam (byte : UInt8)
  | emptyText
  | unterminatedText
  | invalidText
  | callTo (opcode : Opcode)
  | codeInExpression
  | addressBeyond (address size : Nat)
  | negativeAddress (address : Int)
  | noNumberAt (address : Nat)
  | unresolved (label : Label) (address : Nat)
  -- values and memory
  | notNumeric (text : String)
  | closeIsNoOperator
  | malformedExpression
  | stackOverflow (message : String)
  | stackUnderflow (message : String)
  | tooManyVariables
  -- calls and runs
  | noNative (code : UInt16)
  | callFailed (reason : String)
  | interrupted
  | inputEnded
  | fileTrouble (path reason : String)

namespace Cause

/-- Kind of a cause. -/
def kind : Cause → ErrorKind
  | undefined _ | undefinedConstant _ => .undefinedSymbol
  | reserved _ => .reservedWord
  | stringTooLong _ => .stringTooLong
  | constantNotNumeric _ | notNumeric _ => .typeMismatch
  | noOpenBlock | insideOther .. | withoutOpener .. | breakWithoutChoose
  | endChooseWithoutChoose | exitWithoutWhile => .blockMismatch
  | unclosed .. => .unclosedBlock
  | tooManyBlocks _ => .tooManyBlocks
  | tooManySteps _ => .tooManyLinks
  | tooManySwitches _ => .tooManySwitches
  | wordOutsideCase _ | callOutsideCase => .illegalInChoose
  | callInsideBlock .. => .blockCheck
  | blockBreak _ => .blockBreak
  | endOfCode .. => .unexpectedEnd
  | unknownTag _ | unexpectedTag .. | unknownParam _ | emptyText | unterminatedText | invalidText
  | callTo _ | codeInExpression => .unexpectedTag
  | unknownOpcode _ => .illegalOpcode
  | unknownOperator _ => .illegalOperator
  | addressBeyond .. | negativeAddress _ => .addressOutOfRange
  | stackUnderflow _ => .stackUnderflow
  | stackOverflow _ | tooManyVariables => .outOfMemory
  | noNative _ | callFailed _ => .functionFailed
  | interrupted | inputEnded => .interrupted
  | noNumberAt _ | unresolved .. | closeIsNoOperator | malformedExpression | fileTrouble .. =>
    .internalError
  | _ => .syntaxError

/-- Wording of a cause. -/
def message : Cause → String
  | unbalancedParentheses => "UNBALANCED PARENTHESES"
  | missingParenthesis => "MISSING )"
  | unterminatedString => "UNTERMINATED STRING"
  | missingClosingMark => "MISSING CLOSING #"
  | missingOperand => "MISSING OPERAND"
  | notOperator s => "[" ++ s ++ "] IS NOT AN OPERATOR"
  | notAssignment s => "[" ++ s ++ "] IS NOT AN ASSIGNMENT"
  | commandInExpression s => "[" ++ s ++ "] CAN NOT BE USED IN AN EXPRESSION"
  | constantStatement s => "CONSTANT [" ++ s ++ "] IS NOT A STATEMENT"
  | unexpectedText s => "UNEXPECTED [" ++ s ++ "]"
  | numberOutOfRange s => "[" ++ s ++ "] IS OUT OF RANGE"
  | notNumber s => "[" ++ s ++ "] IS NOT A NUMBER"
  | missingName => "MISSING NAME"
  | missingVariableName => "MISSING VARIABLE NAME"
  | missingConstantName => "MISSING CONSTANT NAME"
  | missingConstantValue => "MISSING NUMBER OR CONSTANT"
  | missingFunctionName => "MISSING FUNCTION NAME"
  | missingShape => "MISSING PARAMETER SHAPE"
  | missingCopiedName => "MISSING SYMBOL TO COPY"
  | missingValueFor s => "MISSING VALUE FOR " ++ s
  | missingValueAfter w => "MISSING VALUE AFTER " ++ w.spelling
  | missingCondition w => "MISSING CONDITION AFTER " ++ w.spelling
  | missingParameter n p =>
    "MISSING PARAMETER " ++ toString n ++ " (" ++ p.letter.toString ++ ")"
  | undefined s => "[" ++ s ++ "] IS NOT DEFINED"
  | undefinedConstant s | notConstant s => "[" ++ s ++ "] IS NOT A CONSTANT"
  | reserved s => "[" ++ s ++ "] CAN NOT BE REDEFINED"
  | notParameterType c => "[" ++ c.toString ++ "] IS NOT A PARAMETER TYPE"
  | stepAfterConstant s => "[" ++ s ++ "] CAN NOT FOLLOW A CONSTANT"
  | constantNotNumeric s => "[" ++ s ++ "] IS NOT NUMERIC"
  | functionCodeRange n => "FUNCTION CODE " ++ Text.decimal n ++ " OUT OF RANGE"
  | functionCodeText => "FUNCTION CODE MUST BE A NUMBER"
  | stringTooLong n => toString n ++ " BYTES"
  | noOpenBlock => "NO OPEN BLOCK"
  | insideOther w o => w.spelling ++ " INSIDE " ++ o.spelling
  | withoutOpener w o => w.spelling ++ " WITHOUT " ++ o.spelling
  | breakWithoutChoose => "BREAK WITHOUT CHOOSE"
  | endChooseWithoutChoose => "ENDCHOOSE WITHOUT CHOOSE"
  | exitWithoutWhile => "EXITWHILE WITHOUT WHILE"
  | unclosed o c => o.spelling ++ " WITHOUT " ++ c.spelling
  | tooManyBlocks n | tooManySwitches n => "LIMIT IS " ++ toString n
  | tooManySteps b => "B" ++ toString b ++ " HAS 255 STEPS"
  | wordOutsideCase w => "[" ++ w.spelling ++ "] OUTSIDE CASE"
  | callOutsideCase => "FUNCTION CALL OUTSIDE CASE"
  | callInsideBlock c s => "FUNCTION " ++ toString c.toNat ++ " CALLED INSIDE " ++ s
  | blockBreak s => s
  | endOfCode n p size =>
    "READ " ++ toString n ++ " AT " ++ Text.hexMarked p ++ " OF " ++ Text.hexMarked size
  | unknownTag b => "[" ++ Text.hexByte b ++ "]"
  | unexpectedTag t b => "EXPECTED " ++ t.letter.toString ++ " FOUND " ++ Text.hexByte b
  | unknownOpcode b | unknownOperator b => "[" ++ toString b.toNat ++ "]"
  | unknownParam b => "[" ++ Text.hexByte b ++ "] IS NOT A PARAMETER TYPE"
  | emptyText => "ZERO LENGTH TEXT"
  | unterminatedText => "TEXT NOT TERMINATED"
  | invalidText => "TEXT IS NOT UTF-8"
  | callTo o => "CALL TO " ++ o.name
  | codeInExpression => "CODE IN EXPRESSION"
  | addressBeyond a size => Text.hexMarked a ++ " OF " ++ Text.hexMarked size
  | negativeAddress a => Text.decimal a
  | noNumberAt a => "NO NUMBER TO PATCH AT " ++ Text.hexMarked a
  | unresolved l a => "LINK FAILURE " ++ l.text ++ " AT " ++ Text.hexMarked a
  | notNumeric s => "[" ++ s ++ "] IS NOT A NUMBER"
  | closeIsNoOperator => "END IS NOT A BINARY OPERATOR"
  | malformedExpression => "MALFORMED EXPRESSION"
  | stackOverflow s | stackUnderflow s => s
  | tooManyVariables => "TOO MANY VARIABLES"
  | noNative c => "NO NATIVE FUNCTION " ++ toString c.toNat
  | callFailed s => s
  | interrupted => ""
  | inputEnded => "INPUT"
  | fileTrouble p s => p ++ ": " ++ s

end Cause

/-- The error of a cause, at no place yet. -/
def Error.of (c : Cause) : Error :=
  { kind := c.kind, message := c.message }

@[simp] theorem Error.kind_of (c : Cause) : (Error.of c).kind = c.kind := rfl

@[simp] theorem Error.address_of (c : Cause) : (Error.of c).address = none := rfl

end ScriptMachine
