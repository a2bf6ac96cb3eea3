import ScriptMachine.Bytes.Checksum
import ScriptMachine.Bytes.LittleEndian
import ScriptMachine.Cause
import ScriptMachine.Compiler.Command
import ScriptMachine.Compiler.Draft
import ScriptMachine.Compiler.Expression
import ScriptMachine.Compiler.Script
import ScriptMachine.Compiler.State
import ScriptMachine.Console.Command
import ScriptMachine.Console.Files
import ScriptMachine.Console.Folder
import ScriptMachine.Console.Session
import ScriptMachine.Console.Terminal
import ScriptMachine.Console.Tool
import ScriptMachine.Error
import ScriptMachine.Machine.Basic
import ScriptMachine.Machine.Evaluation
import ScriptMachine.Machine.Host
import ScriptMachine.Machine.Run
import ScriptMachine.Machine.Store
import ScriptMachine.Main
import ScriptMachine.Numeral.Binary
import ScriptMachine.Numeral.Reading
import ScriptMachine.Numeral.Shortest
import ScriptMachine.Scope.Blocks
import ScriptMachine.Scope.Fixups
import ScriptMachine.Scope.Label
import ScriptMachine.Source.Grouping
import ScriptMachine.Source.Lines
import ScriptMachine.Source.Scanner
import ScriptMachine.Stack
import ScriptMachine.Stream.Disassembly
import ScriptMachine.Stream.Instruction
import ScriptMachine.Stream.Item
import ScriptMachine.Stream.Listing
import ScriptMachine.Stream.Program
import ScriptMachine.Stream.Reading
import ScriptMachine.Symbol.Basic
import ScriptMachine.Symbol.Table
import ScriptMachine.Text.Blank
import ScriptMachine.Text.Digits
import ScriptMachine.Text.Length
import ScriptMachine.Text.UpperCase
import ScriptMachine.Value.Arithmetic
import ScriptMachine.Value.Basic
import ScriptMachine.Value.Reduction
import ScriptMachine.Vocabulary.Opcode
import ScriptMachine.Vocabulary.Operator
import ScriptMachine.Vocabulary.Param
import ScriptMachine.Vocabulary.Variable
import ScriptMachine.Vocabulary.Word
import ScriptMachine.Proofs.Encoding
import ScriptMachine.Proofs.Calls
import ScriptMachine.Proofs.Decoding
import ScriptMachine.Proofs.Emission
import ScriptMachine.Proofs.Codec
import ScriptMachine.Proofs.Conformance
import ScriptMachine.Proofs.Levels
import ScriptMachine.Proofs.Structured.Leveling
import ScriptMachine.Proofs.Structured.Balance
import ScriptMachine.Proofs.Planning
import ScriptMachine.Proofs.Scopes
import ScriptMachine.Proofs.Steps
import ScriptMachine.Proofs.Prediction
import ScriptMachine.Proofs.Writing
import ScriptMachine.Proofs.WellFormed
import ScriptMachine.Proofs.Structured.Meaning
import ScriptMachine.Proofs.Running
import ScriptMachine.Proofs.Scanning
import ScriptMachine.Proofs.Safety
import ScriptMachine.Proofs.Structured.Placement
import ScriptMachine.Proofs.Structured.Stepping
import ScriptMachine.Proofs.Structured.Simulation
import ScriptMachine.Proofs.Structured.Drafts
import ScriptMachine.Proofs.Control
import ScriptMachine.Proofs.Lines
import ScriptMachine.Proofs.Structured.Statements
import ScriptMachine.Proofs.Structured.Compilation
import ScriptMachine.Proofs.Structured.Correctness
import ScriptMachine.Proofs.Structured.Acceptance
import ScriptMachine.Proofs.Loading
import ScriptMachine.Proofs.Independence
import ScriptMachine.Proofs.Checking
import ScriptMachine.Proofs.Composition
import ScriptMachine.Proofs.Nesting
import ScriptMachine.Proofs.Reduction
import ScriptMachine.Proofs.Structured.Literals
import ScriptMachine.Proofs.Grouped.Splitting
import ScriptMachine.Proofs.Grouped.Compilation
import ScriptMachine.Proofs.Grouped.Evaluation
import ScriptMachine.Proofs.Batching
import ScriptMachine.Proofs.Naming
import ScriptMachine.Proofs.Parentheses.Nests
import ScriptMachine.Proofs.Parentheses.Flattening
import ScriptMachine.Proofs.Spacing.Drafts
import ScriptMachine.Proofs.Spacing.Fronts
import ScriptMachine.Proofs.Spacing.Assignments
import ScriptMachine.Proofs.Structured.Tokens
import ScriptMachine.Proofs.Phrases.Splitting
import ScriptMachine.Proofs.Phrases.Reading
import ScriptMachine.Proofs.Phrases.Compilation
import ScriptMachine.Proofs.Phrases.Evaluation
import ScriptMachine.Proofs.Phrases.Updates
import ScriptMachine.Proofs.Sentinel
import ScriptMachine.Proofs.Choices.Places
import ScriptMachine.Proofs.Columns.Boundaries
import ScriptMachine.Proofs.Columns.Expressions
import ScriptMachine.Proofs.Columns.Statements
import ScriptMachine.Proofs.Columns.Diagnostics
import ScriptMachine.Proofs.Choices.Heads
import ScriptMachine.Proofs.Choices.Nesting
import ScriptMachine.Proofs.Choices.Legality
import ScriptMachine.Proofs.Comments.Regions
import ScriptMachine.Proofs.Comments.Places
import ScriptMachine.Proofs.Lasting
import ScriptMachine.Proofs.Increments
import ScriptMachine.Proofs.Declarations
import ScriptMachine.Proofs.Enumerations
import ScriptMachine.Proofs.Outcomes
import ScriptMachine.Proofs.Failures
import ScriptMachine.Proofs.Ending
import ScriptMachine.Proofs.Emitting
import ScriptMachine.Proofs.Division
import ScriptMachine.Proofs.Linking
import ScriptMachine.Proofs.Capacity
import ScriptMachine.Proofs.Stacking
import ScriptMachine.Proofs.Pieces
import ScriptMachine.Proofs.Decimals
