/-
  ScriptMachine.Console.Tool

  The work of each command of the tool, on whatever files it is given.
-/

import ScriptMachine.Compiler.Script
import ScriptMachine.Console.Command
import ScriptMachine.Console.Files
import ScriptMachine.Console.Session
import ScriptMachine.Stream.Disassembly

namespace ScriptMachine

namespace Console

/-- What a command leads to. -/
inductive Outcome where
  /-- The command is done and shows some text. -/
  | done (text : String)
  /-- A program is ready to run in batches. -/
  | ready (session : Session) (cycles : Nat)

section

variable {m : Type → Type} [Monad m]

/-- A step of the compiler, as a step of the tool. -/
def onCompiler {α : Type} (x : Compile α) (c : Compiler) : ExceptT Error m (α × Compiler) :=
  match x c with
  | .ok a c => return (a, c)
  | .error e _ => throw e

/-- Loads files one after the other; each is read when its turn comes. -/
def loadAll (files : Files m) (load : String → String → Compile Unit) (paths : List String)
    (c : Compiler) : ExceptT Error m Compiler :=
  paths.foldlM (fun c path => do
    let (_, c) ← onCompiler (load path (← files.text path)) c
    return c) c

/-- Compiles the program of some sources. -/
def Sources.build (files : Files m) (s : Sources) : ExceptT Error m Program := do
  let (_, c) ← onCompiler (Compile.script "prelude" prelude) (Compiler.ofConfig {})
  let c ← loadAll files Compile.loadEnum s.enums c
  let c ← loadAll files Compile.loadTable s.tables c
  let c ← loadAll files Compile.script (s.script :: s.others) c
  let (program, _) ← onCompiler Compile.finish c
  return program

/-- A result, or the failure of the tool. -/
def settle {α : Type} (x : Except Error α) : ExceptT Error m α :=
  ExceptT.mk (pure x)

/-- Does the work of a command; `terminal` is where a program would run. -/
def Command.perform (files : Files m) (terminal : Terminal) :
    Command → ExceptT Error m Outcome
  | .compile sources output listing => do
    let program ← sources.build files
    if let some path := listing then
      files.put path program.listing.shown.toUTF8.data
    files.put (output.getD (withExtension "aeb" sources.script)) program.code
    return .done ""
  | .run sources cycles => do
    let program ← sources.build files
    return .ready (← settle (Session.start program.code terminal)) cycles
  | .check sources => do
    let program ← sources.build files
    match Machine.scan Terminal.natives.host program.code 0 ({}, terminal, #[]) with
    | .ok () _ => return .done (program.code.summary ++ "\n")
    | .error e _ => throw e
  | .dis stream => do
    let text ← settle (Code.disassembly (← files.bytes stream))
    return .done (text ++ "\n")

end

/-- The text of an error at the terminal, in bold. -/
def bold (e : Error) : String :=
  "\x1b[1m" ++ e.render ++ "\x1b[0m\n"

end Console

end ScriptMachine
