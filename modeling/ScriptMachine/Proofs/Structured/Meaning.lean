/-
  ScriptMachine.Proofs.Structured.Meaning

  What structured scripts mean.  A part of a script relates the variables before
  it to its outcomes (`Meaning`); a loop is the only part that may have none.  How
  a variable is stored is a parameter, so that the same script can be read against
  a store of unlimited size and against one that fills up.
-/

import ScriptMachine.Proofs.Execution
import ScriptMachine.Proofs.Structured.Syntax

namespace ScriptMachine.Structured

/-! ## Values of expressions -/

/-- Value of an operand. -/
def Term.value (s : Store) : Term → Value
  | number d => .int d.value
  | text q => .str q.text
  | var x => s.fetch x.text

/-- Values of the operands of an expression, in order. -/
def Expr.operands (s : Store) : Expr → List Value
  | last t => [t.value s]
  | more t _ rest => t.value s :: rest.operands s

/-- Operators of an expression, in order. -/
def Expr.operators : Expr → List Operator
  | last _ => []
  | more _ sign rest => sign.1.2 :: rest.operators

/-- Value of an expression. -/
def Expr.value (s : Store) (e : Expr) : Except Error Value :=
  Value.reduce (e.operands s) e.operators

/-- An expression as a condition. -/
def Expr.test (s : Store) (e : Expr) : Except Error Bool :=
  Value.isTruthy <$> e.value s

/-- An expression against the value under test: of the same kind and equal. -/
def Expr.isCase (s : Store) (e : Expr) : Except Error Bool := do
  Value.same (← e.value s) (s.fetch caseName)

/-! ## Outcomes -/

/-- How a part of a script ends: at its end, by leaving a loop, by leaving a
choice, or with an error. -/
inductive Outcome where
  | done (s : Store)
  | exited (s : Store)
  | left (s : Store)
  | failed (kind : ErrorKind)

/-- The outcome of a single action on the variables. -/
def Outcome.of : Except Error Store → Outcome
  | .ok s => done s
  | .error e => failed e.kind

/-- The outcomes that a part of a script can have. -/
abbrev Meaning := Store → Outcome → Prop

namespace Meaning

/-- Does nothing. -/
def skip : Meaning := fun s o => o = .done s

/-- One part after the other, as long as the first one comes to its end. -/
inductive Then (first second : Meaning) : Meaning where
  | goOn {s s' : Store} {o : Outcome} (h : first s (.done s')) (k : second s' o) :
    Then first second s o
  | stop {s : Store} {o : Outcome} (h : first s o) (hne : ∀ s', o ≠ .done s') :
    Then first second s o

/-- One of two parts, as a test says. -/
inductive Either (test : Store → Except Error Bool) (yes no : Meaning) : Meaning where
  | yes {s : Store} {o : Outcome} (ht : test s = .ok true) (h : yes s o) : Either test yes no s o
  | no {s : Store} {o : Outcome} (ht : test s = .ok false) (h : no s o) : Either test yes no s o
  | failed {s : Store} {e : Error} (ht : test s = .error e) : Either test yes no s (.failed e.kind)

/-- A body again and again while a test holds; leaving the loop ends it. -/
inductive Loop (test : Store → Except Error Bool) (body : Meaning) : Meaning where
  | ended {s : Store} (ht : test s = .ok false) : Loop test body s (.done s)
  | again {s s' : Store} {o : Outcome} (ht : test s = .ok true) (h : body s (.done s'))
    (k : Loop test body s' o) : Loop test body s o
  | exit {s s' : Store} (ht : test s = .ok true) (h : body s (.exited s')) :
    Loop test body s (.done s')
  | leave {s s' : Store} (ht : test s = .ok true) (h : body s (.left s')) :
    Loop test body s (.left s')
  | broken {s : Store} {kind : ErrorKind} (ht : test s = .ok true) (h : body s (.failed kind)) :
    Loop test body s (.failed kind)
  | failed {s : Store} {e : Error} (ht : test s = .error e) : Loop test body s (.failed e.kind)

end Meaning

/-! ## Scripts -/

/-- How a value is stored in a variable. -/
abbrev Put := Store → String → Value → Except Error Store

/-- A store of unlimited size. -/
def Put.unlimited : Put := fun s name v => .ok ⟨s.vars.insert name v⟩

section
variable (put : Put)

/-- The variables after an assignment. -/
def Change.apply (s : Store) (x : Name) : Change → Except Error Store
  | store how e => do put s x.text (← how.combine (s.fetch x.text) (← e.value s))
  | increment => put s x.text (s.fetch x.text).increment
  | decrement => put s x.text (s.fetch x.text).decrement

/-- Gives the value under test back its earlier value, however its choice was
left. -/
def restore (saved : Value) : Outcome → Outcome
  | .done s | .left s => .of (put s caseName saved)
  | .exited s =>
    match put s caseName saved with
    | .ok s => .exited s
    | .error e => .failed e.kind
  | .failed kind => .failed kind

/-- A choice: the value is put under test, the clauses are gone through, and the
value that was under test before comes back. -/
inductive Choice (value : Expr) (clauses : Meaning) : Meaning where
  | enter {s s' : Store} {v : Value} {o : Outcome} (hv : value.value s = .ok v)
    (hs : put s caseName v = .ok s') (h : clauses s' o) :
    Choice value clauses s (restore put (s.fetch caseName) o)
  | full {s : Store} {v : Value} {e : Error} (hv : value.value s = .ok v)
    (hs : put s caseName v = .error e) : Choice value clauses s (.failed e.kind)
  | failed {s : Store} {e : Error} (hv : value.value s = .error e) :
    Choice value clauses s (.failed e.kind)

open Meaning in
mutual

/-- The outcomes of a statement. -/
def Stmt.Ends : Stmt → Meaning
  | .declare _ none => skip
  | .declare x (some change) => fun s o => o = .of (change.apply put s x)
  | .assign x change => fun s o => o = .of (change.apply put s x)
  | .branch test body others => Either (fun s => test.test s) body.Ends others.Ends
  | .loop test body => Loop (fun s => test.test s) body.Ends
  | .exit => fun s o => o = .exited s
  | .choose value clauses => Choice put value clauses.Ends
  | .leave => fun s o => o = .left s

/-- The outcomes of a block. -/
def Block.Ends : Block → Meaning
  | .nil => skip
  | .cons s rest => Then s.Ends rest.Ends

/-- The outcomes of further branches, once the tests before them have failed. -/
def Branches.Ends : Branches → Meaning
  | .nil => skip
  | .otherwise body => body.Ends
  | .also test body others => Either (fun s => test.test s) body.Ends others.Ends

/-- The outcomes of clauses gone through in order; the body of a case runs when
its value is the one under test, and then the next clause is tested. -/
def Clauses.Ends : Clauses → Meaning
  | .nil => skip
  | .case value body rest =>
    Then (Either (fun s => value.isCase s) body.Ends skip) rest.Ends
  | .default body rest => Then body.Ends rest.Ends

end

end

end ScriptMachine.Structured
