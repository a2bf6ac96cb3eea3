/-
  ScriptMachine.Console.Command

  The commands of the tool and how they are given on a command line.  Options may
  stand before, between and after the scripts; every option has a value.
-/

import ScriptMachine.Text.Digits

namespace ScriptMachine

namespace Console

/-- The files of a program: enumerations and tables of constants are loaded
before the scripts.  There is at least one script. -/
structure Sources where
  enums : List String := []
  tables : List String := []
  script : String
  others : List String := []
  deriving DecidableEq, Repr

/-- What the tool is asked to do. -/
inductive Command where
  /-- Compile scripts into one instruction stream. -/
  | compile (sources : Sources) (output listing : Option String)
  /-- Compile scripts and run them in batches of instructions. -/
  | run (sources : Sources) (cycles : Nat)
  /-- Compile scripts and scan the result without running it. -/
  | check (sources : Sources)
  /-- Disassemble a compiled instruction stream. -/
  | dis (stream : String)
  deriving DecidableEq, Repr

namespace Command

/-! ## Options -/

/-- The options of the tool. -/
inductive Flag where
  | output
  | listing
  | enums
  | tables
  | cycles
  deriving DecidableEq, Repr

/-- The flag of a long option. -/
def Flag.ofName? : String → Option Flag
  | "output" => some output
  | "listing" => some listing
  | "enum" => some enums
  | "def" => some tables
  | "cycles" => some cycles
  | _ => none

/-- A command line taken apart: the options in order, and the plain arguments. -/
structure Line where
  options : List (Flag × String) := []
  plain : List String := []

/-- Puts an option in front. -/
def Line.option (flag : Flag) (value : String) (l : Line) : Line :=
  { l with options := (flag, value) :: l.options }

/-- The flag that an argument names, with the value if that is in the same
argument. -/
def flag? : List Char → Option (Flag × Option String)
  | '-' :: '-' :: name =>
    let short := name.takeWhile (· ≠ '=')
    match Flag.ofName? (String.ofList short), name.drop short.length with
    | some flag, [] => some (flag, none)
    | some flag, _ :: value => some (flag, some (String.ofList value))
    | none, _ => none
  | ['-', 'o'] => some (.output, none)
  | '-' :: 'o' :: '=' :: value => some (.output, some (String.ofList value))
  | '-' :: 'o' :: value => some (.output, some (String.ofList value))
  | _ => none

/-- An argument that can only be an option. -/
def isOption (arg : String) : Bool :=
  match arg.toList with
  | '-' :: _ :: _ => true
  | _ => false

/-- Takes a command line apart.  Behind `--` all arguments are plain. -/
def Line.ofArgs? : List String → Option Line
  | [] => some {}
  | "--" :: args => some { plain := args }
  | [arg] =>
    if isOption arg then
      match flag? arg.toList with
      | some (flag, some value) => some (Line.option flag value {})
      | _ => none
    else some { plain := [arg] }
  | arg :: next :: args =>
    if isOption arg then
      match flag? arg.toList with
      | some (flag, some value) => (Line.ofArgs? (next :: args)).map (Line.option flag value)
      | some (flag, none) =>
        if isOption next then none else (Line.ofArgs? args).map (Line.option flag next)
      | none => none
    else (Line.ofArgs? (next :: args)).map fun l => { l with plain := arg :: l.plain }

/-- All values of an option. -/
def Line.values (l : Line) (flag : Flag) : List String :=
  (l.options.filter (·.1 = flag)).map (·.2)

/-- The value of an option that may be given once. -/
def Line.single? (l : Line) (flag : Flag) : Option (Option String) :=
  match l.values flag with
  | [] => some none
  | [value] => some (some value)
  | _ => none

/-- Only these options are given, and no argument is empty. -/
def Line.allows (l : Line) (flags : List Flag) : Bool :=
  l.options.all (fun (flag, value) => flags.contains flag && value ≠ "") && l.plain.all (· ≠ "")

/-- The sources that a command line names. -/
def Line.sources? (l : Line) : Option Sources :=
  match l.plain with
  | [] => none
  | script :: others =>
    some { enums := l.values .enums, tables := l.values .tables, script, others }

/-! ## Commands -/

/-- The instructions of a batch when nothing else is asked for. -/
def defaultCycles : Nat := 5000

/-- A count of 64 bits; a plus sign may stand in front. -/
def count? (s : String) : Option Nat :=
  let digits :=
    match s.toList with
    | '+' :: cs => cs
    | cs => cs
  (Text.readNat? digits).filter (· < UInt64.size)

/-- The command of a command line; none when it is malformed. -/
def ofArgs? : List String → Option Command
  | "compile" :: args => do
    let l ← Line.ofArgs? args
    guard (l.allows [.output, .listing, .enums, .tables])
    return .compile (← l.sources?) (← l.single? .output) (← l.single? .listing)
  | "run" :: args => do
    let l ← Line.ofArgs? args
    guard (l.allows [.cycles, .enums, .tables])
    match ← l.single? .cycles with
    | none => return .run (← l.sources?) defaultCycles
    | some n => return .run (← l.sources?) (← count? n)
  | "check" :: args => do
    let l ← Line.ofArgs? args
    guard (l.allows [.enums, .tables])
    return .check (← l.sources?)
  | "dis" :: args => do
    let l ← Line.ofArgs? args
    guard (l.allows [])
    match l.plain with
    | [stream] => return .dis stream
    | _ => none
  | _ => none

end Command

end Console

end ScriptMachine
