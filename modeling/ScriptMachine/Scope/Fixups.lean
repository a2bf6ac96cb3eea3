/-
  ScriptMachine.Scope.Fixups

  Jump operands waiting for their addresses.  A jump is written with a
  placeholder; once all blocks are closed every placeholder is replaced by the
  address recorded for its label, in the order of writing.
-/

import ScriptMachine.Scope.Blocks
import ScriptMachine.Stream.Program

namespace ScriptMachine

/-- The number item at `address` must hold the address of `label`. -/
structure Fixup where
  address : Nat
  label : Label
  deriving DecidableEq, Repr

/-- Note of a resolved fixup in the listing. -/
def Fixup.note (f : Fixup) (dest : Nat) : String :=
  "fixup " ++ Text.hexMarked f.address ++ " " ++ f.label.text ++ " -> " ++ Text.hexMarked dest

/-- Puts the address of the label into the program. -/
def Fixup.resolve (blocks : Blocks) (f : Fixup) : EStateM Error Program Unit := fun p =>
  match blocks.address? f.label with
  | none => .error (.of (.unresolved f.label f.address)) p
  | some dest =>
    match p.patch f.address (Int64.ofNat dest) with
    | .ok p => .ok () (p.comment (f.note dest))
    | .error e => .error e p

/-- Resolves fixups in order, up to the first that fails. -/
def resolveFixups (blocks : Blocks) (fixups : List Fixup) : EStateM Error Program Unit :=
  fixups.forM (·.resolve blocks)

end ScriptMachine
