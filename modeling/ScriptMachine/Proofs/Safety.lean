/-
  ScriptMachine.Proofs.Safety

  Sound code does not go wrong in the decoder.  A stream is closed when it reads as
  instructions, the last of them stops, and every jump goes to the start of one of
  them.  A machine that stands at the start of an instruction of a closed stream is
  there again after every step as long as it runs, and what can fail is left to the
  script: a text that is no number, a call, a full memory, an empty stack
  (`Exec.steps_closed`).

  The argument carries an invariant `I` of the variables and the host along, so that a
  run can also be asked what its calls have in common and what its variables hold:
  `Host.Respects` says what a call of the program has to keep, `Store.Settable` what
  storing into a variable has to keep.
-/

import ScriptMachine.Proofs.Calls
import ScriptMachine.Proofs.Decoding
import ScriptMachine.Proofs.Planning
import ScriptMachine.Proofs.Running

namespace ScriptMachine

/-- The kinds of error that a script runs into whose code is sound. -/
def ErrorKind.ofScript : ErrorKind → Bool
  | typeMismatch | functionFailed | outOfMemory | stackUnderflow => true
  | _ => false

theorem ErrorKind.not_mem_of_ofScript {k : ErrorKind} (h : k.ofScript = true) :
    k ∉ [unexpectedEnd, unexpectedTag, illegalOpcode, illegalOperator, addressOutOfRange,
      internalError] := by
  cases k <;> first | decide | cases h

-- ============================================================================
-- Values
-- ============================================================================

namespace Value

variable {α β : Type}

/-- The computation fails on nothing but a text that is no number. -/
def OnlyMismatch (x : Except Error α) : Prop :=
  ∀ e, x = .error e → ∃ text, e = .of (.notNumeric text)

theorem OnlyMismatch.kind {x : Except Error α} (h : OnlyMismatch x) {e : Error}
    (he : x = .error e) : e.kind = .typeMismatch := by
  obtain ⟨text, rfl⟩ := h e he
  rfl

theorem onlyMismatch_ok (a : α) : OnlyMismatch (.ok a) := by
  rintro e ⟨⟩

theorem OnlyMismatch.bind {x : Except Error α} {f : α → Except Error β} (h : OnlyMismatch x)
    (hf : ∀ a, x = .ok a → OnlyMismatch (f a)) : OnlyMismatch (x >>= f) := by
  cases x with
  | error e =>
    rintro _ ⟨⟩
    exact h e rfl
  | ok a => exact hf a rfl

/-- A computation whose result is only used for another one. -/
theorem OnlyMismatch.pure {x : Except Error α} {f : α → β} (h : OnlyMismatch x) :
    OnlyMismatch (do return f (← x)) :=
  h.bind fun a _ => onlyMismatch_ok (f a)

theorem onlyMismatch_notNumeric (text : String) :
    OnlyMismatch (.error (.of (.notNumeric text)) : Except Error α) := by
  rintro e ⟨⟩
  exact ⟨text, rfl⟩

theorem onlyMismatch_toInteger (v : Value) : OnlyMismatch v.toInteger := by
  cases v with
  | str s =>
    simp only [toInteger, integerOfText]
    split
    · exact onlyMismatch_ok _
    · split
      · exact onlyMismatch_ok _
      · split
        · exact onlyMismatch_ok _
        · exact onlyMismatch_notNumeric _
  | _ => exact onlyMismatch_ok _

theorem onlyMismatch_toSingle (v : Value) : OnlyMismatch v.toSingle := by
  cases v with
  | str s =>
    simp only [toSingle]
    split
    · exact onlyMismatch_ok _
    · exact onlyMismatch_notNumeric s
  | _ => exact onlyMismatch_ok _

theorem onlyMismatch_toDouble (v : Value) : OnlyMismatch v.toDouble := by
  cases v with
  | str s =>
    simp only [toDouble]
    split
    · exact onlyMismatch_ok _
    · exact onlyMismatch_notNumeric s
  | _ => exact onlyMismatch_ok _

theorem onlyMismatch_coerce (v : Value) (k : Kind) : OnlyMismatch (v.coerce k) := by
  cases k with
  | int => exact (onlyMismatch_toInteger v).pure
  | str => exact onlyMismatch_ok _
  | single => exact (onlyMismatch_toSingle v).pure
  | double => exact (onlyMismatch_toDouble v).pure

section
variable (l r : Value)

theorem onlyMismatch_equal : OnlyMismatch (equal l r) := by
  cases l with
  | int => exact (onlyMismatch_toInteger r).pure
  | single => exact (onlyMismatch_toSingle r).pure
  | double => exact (onlyMismatch_toDouble r).pure
  | str => exact onlyMismatch_ok _

theorem onlyMismatch_same : OnlyMismatch (same l r) := by
  unfold same
  split
  · exact onlyMismatch_equal l r
  · exact onlyMismatch_ok _

theorem onlyMismatch_order : OnlyMismatch (order l r) := by
  cases l with
  | int => exact (onlyMismatch_toInteger r).pure
  | single => exact (onlyMismatch_toSingle r).pure
  | double => exact (onlyMismatch_toDouble r).pure
  | str => exact onlyMismatch_ok _

/-- An operator fails on nothing else either, unless it is the mark that ends an
expression. -/
theorem onlyMismatch_apply {op : Operator} (hop : op ≠ .close) : OnlyMismatch (apply op l r) := by
  cases op with
  | close => exact absurd rfl hop
  | add | sub | mul | div | mod =>
    cases l with
    | int => exact (onlyMismatch_toInteger r).pure
    | str => exact onlyMismatch_ok _
    -- the remainder leaves floats alone
    | single => first | exact (onlyMismatch_toSingle r).pure | exact onlyMismatch_ok _
    | double => first | exact (onlyMismatch_toDouble r).pure | exact onlyMismatch_ok _
  | equal | notEqual => exact (onlyMismatch_equal l r).pure
  | greater | less | greaterEqual | lessEqual => exact (onlyMismatch_order l r).pure
  | and | or =>
    unfold apply
    dsimp only
    split <;> first | exact (onlyMismatch_coerce r l.kind).pure | exact onlyMismatch_ok _

end

/-- Working out the products brings no mark that ends an expression in. -/
theorem onlyMismatch_settleProducts (first : Value) (rest : List (Operator × Value))
    (hrest : ∀ x ∈ rest, x.1 ≠ .close) :
    OnlyMismatch (settleProducts first rest) ∧
      ∀ r, settleProducts first rest = .ok r → ∀ x ∈ r.2, x.1 ≠ .close := by
  induction rest generalizing first with
  | nil =>
    refine ⟨onlyMismatch_ok _, ?_⟩
    rintro _ ⟨⟩ x hx
    cases hx
  | cons y rest ih =>
    obtain ⟨op, v⟩ := y
    obtain ⟨hop, htail⟩ := List.forall_mem_cons.1 hrest
    rw [settleProducts]
    split
    · refine ⟨(onlyMismatch_apply first v hop).bind fun product _ =>
        (ih product htail).1.bind fun r _ => onlyMismatch_ok _, ?_⟩
      intro r hr
      obtain ⟨product, _, hr⟩ := except_bind_eq_ok hr
      obtain ⟨r', hr', hr⟩ := except_bind_eq_ok hr
      cases hr
      exact List.forall_mem_cons.2 ⟨fun h => Operator.noConfusion h, (ih product htail).2 r' hr'⟩
    · refine ⟨(ih v htail).1.bind fun r _ => onlyMismatch_ok _, ?_⟩
      intro r hr
      obtain ⟨r', hr', hr⟩ := except_bind_eq_ok hr
      cases hr
      exact List.forall_mem_cons.2 ⟨hop, (ih v htail).2 r' hr'⟩

theorem onlyMismatch_reduceLeft (first : Value) (rest : List (Operator × Value))
    (hrest : ∀ x ∈ rest, x.1 ≠ .close) : OnlyMismatch (reduceLeft first rest) := by
  induction rest generalizing first with
  | nil => exact onlyMismatch_ok _
  | cons y rest ih =>
    obtain ⟨hop, htail⟩ := List.forall_mem_cons.1 hrest
    have hcons : reduceLeft first (y :: rest) = (do
        let v ← apply y.1 first y.2
        reduceLeft v rest) := List.foldlM_cons
    rw [hcons]
    exact (onlyMismatch_apply first y.2 hop).bind fun v _ => ih v htail

/-- An expression with one operand more than operators, none of them the mark that
ends it, fails on nothing but a text that is no number. -/
theorem onlyMismatch_reduce {operands : List Value} {operators : List Operator}
    (hlen : operands.length = operators.length + 1) (hops : Operator.close ∉ operators) :
    OnlyMismatch (reduce operands operators) := by
  cases operands with
  | nil => cases hlen
  | cons first rest =>
    have heq : rest.length = operators.length := Nat.succ.inj hlen
    have hzip : ∀ x ∈ operators.zip rest, x.1 ≠ .close := by
      intro x hx hclose
      exact hops (hclose ▸ (List.of_mem_zip hx).1)
    obtain ⟨hsettle, hafter⟩ := onlyMismatch_settleProducts first _ hzip
    simp only [reduce, if_pos heq]
    exact hsettle.bind fun r hr => onlyMismatch_reduceLeft r.1 r.2 (hafter r hr)

theorem onlyMismatch_combine (how : Assignment) (l r : Value) :
    OnlyMismatch (how.combine l r) := by
  cases how with
  | mov => exact onlyMismatch_ok _
  | add => exact onlyMismatch_apply l r (show Operator.add ≠ .close by decide)
  | sub => exact onlyMismatch_apply l r (show Operator.sub ≠ .close by decide)
  | mul => exact onlyMismatch_apply l r (show Operator.mul ≠ .close by decide)
  | div => exact onlyMismatch_apply l r (show Operator.div ≠ .close by decide)
  | mod => exact onlyMismatch_apply l r (show Operator.mod ≠ .close by decide)

theorem onlyMismatch_argument (p : Param) (v : Value) : OnlyMismatch (Eval.argument p v) := by
  cases p with
  | str => exact onlyMismatch_coerce v .str
  | num => exact onlyMismatch_coerce v .int
  | float => exact onlyMismatch_coerce v .single
  | _ => exact onlyMismatch_ok v

end Value

-- ============================================================================
-- Work that keeps an invariant of the variables and the host
-- ============================================================================

variable {σ α β : Type}

namespace Work

/-- The work ended with the invariant kept: with a result that satisfies `Q`, or with
an error of the script. -/
def Kept (I : Store × σ → Prop) (Q : α → Prop) (r : EStateM.Result Error (Store × σ) α) : Prop :=
  match r with
  | .ok a w => I w ∧ Q a
  | .error e w => I w ∧ e.kind.ofScript = true

/-- The work keeps the invariant wherever it begins. -/
def Keeps (I : Store × σ → Prop) (Q : α → Prop) (x : Work σ α) : Prop :=
  ∀ w, I w → Kept I Q (x w)

variable {I : Store × σ → Prop} {Q : α → Prop} {R : β → Prop}

theorem Keeps.bind {x : Work σ α} {f : α → Work σ β} (h : Keeps I Q x)
    (hf : ∀ w a w', x w = .ok a w' → Q a → I w' → Kept I R (f a w')) :
    Keeps I R (x >>= f) := by
  intro w hw
  have hx := h w hw
  simp only [Bind.bind, EStateM.bind]
  cases hr : x w with
  | ok a w' =>
    rw [hr] at hx
    exact hf w a w' hr hx.2 hx.1
  | error e w' =>
    rw [hr] at hx
    exact hx

/-- The same where the result is all that the second part has to know. -/
theorem Keeps.seq {x : Work σ α} {f : α → Work σ β} (h : Keeps I Q x)
    (hf : ∀ a, Q a → Keeps I R (f a)) : Keeps I R (x >>= f) :=
  h.bind fun _ a w' _ ha hw => hf a ha w' hw

theorem Keeps.pure {a : α} (h : Q a) : Keeps I Q (Pure.pure a : Work σ α) :=
  fun _ hw => ⟨hw, h⟩

theorem keeps_ofExcept {x : Except Error α} (h : Value.OnlyMismatch x) :
    Keeps I (fun _ => True) (ofExcept x) := by
  intro w hw
  cases x with
  | ok a => exact ⟨hw, trivial⟩
  | error e =>
    refine ⟨hw, ?_⟩
    rw [h.kind rfl]
    rfl

end Work

theorem Eval.kind_callError (e : Error) : (callError e).kind = .functionFailed := by
  unfold callError
  split
  · assumption
  · rfl

theorem Eval.onlyMismatch_settle (mode : Mode) {operands : List Value} {operators : List Operator}
    (hlen : operands.length = operators.length + 1) (hops : Operator.close ∉ operators) :
    Value.OnlyMismatch (settle mode operands operators) := by
  cases mode with
  | run => exact Value.onlyMismatch_reduce hlen hops
  | scan => exact Value.onlyMismatch_ok _

/-- The host keeps the invariant on every call that satisfies `P`, when the call is
made with the values of its arguments. -/
def Host.Respects (host : Host σ) (mode : Mode) (I : Store × σ → Prop)
    (P : UInt16 × Args → Prop) : Prop :=
  ∀ code as, P (code, as) → ∀ w vs w', as.eval host mode w = .ok vs w' → I w' →
    match Work.invoke host mode code vs w' with
    | .ok _ w'' => I w''
    | .error _ w'' => I w''

/-- A host is not bound to anything by the invariant that always holds. -/
theorem Host.respects_true (host : Host σ) (mode : Mode) (P : UInt16 × Args → Prop) :
    host.Respects mode (fun _ => True) P := by
  intro code as _ w vs w' _ _
  split <;> trivial

/-- Storing into the variable keeps the invariant. -/
def Store.Settable (I : Store × σ → Prop) (name : String) : Prop :=
  ∀ (store t : Store) (s : σ) v, store.store name v = .ok t → I (store, s) → I (t, s)

theorem Store.ofScript_of_store {store : Store} {name : String} {v : Value} {e : Error}
    (h : store.store name v = .error e) : e.kind.ofScript = true := by
  unfold Store.store at h
  split at h <;> cases h
  rfl

section
variable {host : Host σ} {mode : Mode} {I : Store × σ → Prop} {P : UInt16 × Args → Prop}

theorem Work.kept_invoke (hhost : host.Respects mode I P) {code : UInt16} {as : Args}
    (hcall : P (code, as)) {w w' : Store × σ} {vs : List Value}
    (has : as.eval host mode w = .ok vs w') (hw : I w') :
    Kept I (fun _ => True) (invoke host mode code vs w') := by
  have hkeep := hhost code as hcall w vs w' has hw
  have hfailed : ∀ e, (Eval.callError e).kind.ofScript = true := by
    intro e
    rw [Eval.kind_callError]
    rfl
  cases hr : invoke host mode code vs w' with
  | ok v w'' =>
    rw [hr] at hkeep
    exact ⟨hkeep, trivial⟩
  | error e w'' =>
    rw [hr] at hkeep
    refine ⟨hkeep, ?_⟩
    -- the host's own error is hidden behind that of a failed function
    unfold invoke at hr
    cases mode with
    | run =>
      dsimp only at hr
      split at hr
      · cases hr
      · cases hr
        exact hfailed _
    | scan =>
      dsimp only at hr
      split at hr
      · cases hr
      · cases hr
        exact hfailed _

mutual

theorem Operand.keeps_eval (hhost : host.Respects mode I P) : ∀ {o : Operand}, o.Legible →
    (∀ x ∈ o.calls, P x) → Work.Keeps I (fun _ => True) (o.eval host mode)
  | .str s, _, _ => .pure trivial
  | .num n, _, _ => .pure trivial
  | .var name, _, _ => fun w hw => ⟨hw, trivial⟩
  | .call code as, hl, hcalls => by
    obtain ⟨hcall, hrest⟩ := List.forall_mem_cons.1 hcalls
    rw [Operand.eval]
    exact (Args.keeps_eval hhost hl hrest).bind fun w vs w' hvs _ hw =>
      Work.kept_invoke hhost hcall hvs hw

theorem Args.keeps_eval (hhost : host.Respects mode I P) : ∀ {as : Args}, as.Legible →
    (∀ x ∈ as.calls, P x) → Work.Keeps I (fun _ => True) (as.eval host mode)
  | .nil, _, _ => .pure trivial
  | .cons p e rest, hl, hcalls => by
    obtain ⟨_, he, hrest⟩ := hl
    obtain ⟨hcalls, hmore⟩ := List.forall_mem_append.1 hcalls
    rw [Args.eval]
    refine (Expression.keeps_chain hhost he hcalls).seq fun r hr => ?_
    refine (Work.keeps_ofExcept (Eval.onlyMismatch_settle mode hr.1 hr.2)).seq fun v _ => ?_
    refine (Work.keeps_ofExcept (Value.onlyMismatch_argument p v)).seq fun u _ => ?_
    exact (Args.keeps_eval hhost hrest hmore).seq fun vs _ => .pure trivial

theorem Expression.keeps_chain (hhost : host.Respects mode I P) : ∀ {e : Expression},
    e.Legible → (∀ x ∈ e.calls, P x) →
    Work.Keeps I (fun r => r.1.length = r.2.length + 1 ∧ Operator.close ∉ r.2)
      (e.chain host mode)
  | .last o, hl, hcalls => by
    rw [Expression.chain]
    exact (Operand.keeps_eval hhost hl hcalls).seq fun v _ => .pure ⟨rfl, by simp⟩
  | .more o op rest, hl, hcalls => by
    obtain ⟨hop, ho, hrest⟩ := hl
    obtain ⟨hcalls, hmore⟩ := List.forall_mem_append.1 hcalls
    rw [Expression.chain]
    refine (Operand.keeps_eval hhost ho hcalls).seq fun v _ => ?_
    refine (Expression.keeps_chain hhost hrest hmore).seq fun r hr => .pure ⟨?_, ?_⟩
    · simp only [List.length_cons, hr.1]
    · simp only [List.mem_cons, not_or]
      exact ⟨fun h => hop h.symm, hr.2⟩

end

theorem Expression.keeps_eval (hhost : host.Respects mode I P) {e : Expression} (hl : e.Legible)
    (hcalls : ∀ x ∈ e.calls, P x) : Work.Keeps I (fun _ => True) (e.eval host mode) := by
  rw [Expression.eval]
  exact (Expression.keeps_chain hhost hl hcalls).seq fun r hr =>
    Work.keeps_ofExcept (Eval.onlyMismatch_settle mode hr.1 hr.2)

end

-- ============================================================================
-- Instructions
-- ============================================================================

namespace Exec

/-- The step ended with the invariant kept: at a machine that satisfies `Q` together
with the result, or with an error of the script. -/
def Kept (I : Store × σ → Prop) (Q : α → Machine → Prop)
    (r : EStateM.Result Error (Machine × σ) α) : Prop :=
  match r with
  | .ok a w => I (w.1.store, w.2) ∧ Q a w.1
  | .error e w => I (w.1.store, w.2) ∧ e.kind.ofScript = true

/-- The step keeps the invariant when it is taken from the machine `m`. -/
def Keeps (I : Store × σ → Prop) (Q : α → Machine → Prop) (x : Exec σ α) (m : Machine) : Prop :=
  ∀ s, I (m.store, s) → Kept I Q (x (m, s))

variable {I : Store × σ → Prop} {Q : α → Machine → Prop} {R : β → Machine → Prop} {m : Machine}

theorem Keeps.bind {x : Exec σ α} {f : α → Exec σ β} (h : Keeps I Q x m)
    (hf : ∀ a m', Q a m' → Keeps I R (f a) m') : Keeps I R (x >>= f) m := by
  intro s hs
  have hx := h s hs
  simp only [Bind.bind, EStateM.bind]
  cases hr : x (m, s) with
  | ok a w =>
    rw [hr] at hx
    exact hf a w.1 hx.2 w.2 hx.1
  | error e w =>
    rw [hr] at hx
    exact hx

theorem Keeps.pure {a : α} (h : Q a m) : Keeps I Q (Pure.pure a : Exec σ α) m :=
  fun _ hs => ⟨hs, h⟩

theorem Keeps.mono {Q' : α → Machine → Prop} {x : Exec σ α} (h : Keeps I Q x m)
    (hq : ∀ a m', Q a m' → Q' a m') : Keeps I Q' x m := by
  intro s hs
  have hx := h s hs
  cases hr : x (m, s) with
  | ok a w =>
    rw [hr] at hx
    exact ⟨hx.1, hq a w.1 hx.2⟩
  | error e w =>
    rw [hr] at hx
    exact hx

/-- The machine `m'` has the stream and the flags of `m` and stands at `next`. -/
structure Stays (m : Machine) (next : Nat) (m' : Machine) : Prop where
  code : m'.code = m.code
  mode : m'.mode = m.mode
  running : m'.running = m.running
  position : m'.position = next

theorem Keeps.get {f : Machine × σ → Exec σ β} (h : ∀ s, Keeps I R (f (m, s)) m) :
    Keeps I R (MonadState.get >>= f) m :=
  fun s hs => h s s hs

theorem Stays.trans {p q : Nat} {m' m'' : Machine} (h : Stays m p m') (k : Stays m' q m'') :
    Stays m q m'' :=
  ⟨k.code.trans h.code, k.mode.trans h.mode, k.running.trans h.running, k.position⟩

theorem keeps_advance (next : Nat) :
    Keeps I (fun _ m' => Stays m next m') (advance next : Exec σ Unit) m :=
  fun _ hs => ⟨hs, rfl, rfl, rfl, rfl⟩

theorem keeps_work {next : Nat} {y : Mode → Work σ α}
    (h : Work.Keeps I (fun _ => True) (y m.mode)) :
    Keeps I (fun _ m' => Stays m next m') (work next y) m := by
  intro s hs
  have hy := h (m.store, s) hs
  unfold work
  cases hr : y m.mode (m.store, s) with
  | ok a w =>
    rw [hr] at hy
    simp only [hr]
    exact ⟨hy.1, rfl, rfl, rfl, rfl⟩
  | error e w =>
    rw [hr] at hy
    simp only [hr]
    exact hy

/-- Storing a variable fails only on a full memory. -/
theorem keeps_setVariable {name : String} (hname : Store.Settable I name)
    {x : Machine → Except Error Value} (hx : Value.OnlyMismatch (x m)) :
    Keeps I (fun _ m' => Stays m m.position m')
      (effect fun m => do m.setVariable name (← x m) : Exec σ Unit) m := by
  intro s hs
  unfold effect change
  dsimp only
  by_cases hscan : m.mode = .scan
  · rw [if_pos hscan]
    exact ⟨hs, rfl, rfl, rfl, rfl⟩
  · rw [if_neg hscan]
    cases hv : x m with
    | error e =>
      refine ⟨hs, ?_⟩
      rw [hx.kind hv]
      rfl
    | ok v =>
      simp only [Machine.setVariable, bind, Except.bind]
      cases ht : m.store.store name v with
      | error e => exact ⟨hs, Store.ofScript_of_store ht⟩
      | ok t => exact ⟨hname _ t s v ht hs, rfl, rfl, rfl, rfl⟩

theorem keeps_onStack {x : EStateM Error (Stack Value) α} {skipped : α}
    (hx : ∀ st e st', x st = .error e st' → e.kind.ofScript = true) :
    Keeps I (fun _ m' => Stays m m.position m') (onStack x skipped : Exec σ α) m := by
  intro s hs
  unfold onStack
  dsimp only
  by_cases hscan : m.mode = .scan
  · rw [if_pos hscan]
    exact ⟨hs, rfl, rfl, rfl, rfl⟩
  · rw [if_neg hscan]
    cases hr : x m.stack with
    | ok a st => exact ⟨hs, rfl, rfl, rfl, rfl⟩
    | error e st => exact ⟨hs, hx m.stack e st hr⟩

/-- A jump to an address of the stream does not fail; it may be left out. -/
theorem keeps_jump {dest : Int64} {b : Nat} (hb : b < m.code.size) (hdest : dest.toInt = b) :
    Keeps I (fun _ m' => Stays m m.position m' ∨ Stays m b m') (jump dest : Exec σ Unit) m := by
  intro s hs
  unfold jump change
  dsimp only
  by_cases hoff : m.mode = .scan ∨ m.gotoLock = true
  · rw [if_pos hoff]
    exact ⟨hs, .inl ⟨rfl, rfl, rfl, rfl⟩⟩
  · have hneg : ¬ dest.toInt < 0 := by omega
    have hseek : m.code.seek dest.toInt.toNat = .ok b := by
      rw [hdest, Int.toNat_natCast, Code.seek, if_pos hb]
    rw [if_neg hoff, if_neg hneg, hseek]
    exact ⟨hs, .inr ⟨rfl, rfl, rfl, rfl⟩⟩

end Exec

/-- What an instruction that ends at `next` makes of the machine: it goes on behind the
instruction or at the address of its jump, unless it was `stop`. -/
structure Instruction.Moves (i : Instruction) (next : Nat) (m : Machine) (more : Bool)
    (m' : Machine) : Prop where
  code : m'.code = m.code
  mode : m'.mode = m.mode
  running : m'.running = (m.running && more)
  goesOn : more = true → i ≠ .stop
  place : m'.position = next ∨ ∃ dest, i.dest? = some dest ∧ dest.toInt = m'.position

theorem Exec.Stays.moves {i : Instruction} {next : Nat} {m m' : Machine}
    (h : Exec.Stays m next m') (hi : i ≠ .stop) : i.Moves next m true m' :=
  ⟨h.code, h.mode, by rw [h.running, Bool.and_true], fun _ => hi, .inl h.position⟩

namespace Exec

section
variable {I : Store × σ → Prop} {m m₁ : Machine} {i : Instruction} {next : Nat}
  (h : Stays m next m₁)
include h

/-- Behind an instruction that has come to `next`. -/
theorem keeps_behind (hi : i ≠ .stop) :
    Keeps I (i.Moves next m) (pure true : Exec σ Bool) m₁ :=
  .pure (h.moves hi)

/-- Behind a jump that has been taken or left out. -/
theorem keeps_jumping {dest : Int64} (hi : i.dest? = some dest)
    (hdest : ∃ b, b < m.code.size ∧ dest.toInt = b) :
    Keeps I (i.Moves next m) (do jump dest; return true : Exec σ Bool) m₁ := by
  obtain ⟨b, hb, hto⟩ := hdest
  have hne : i ≠ .stop := by
    rintro rfl
    cases hi
  rw [← h.code] at hb
  refine (keeps_jump hb hto).bind fun _ m₂ h₂ => .pure ?_
  rcases h₂ with h₂ | h₂
  · rw [h.position] at h₂
    exact (h.trans h₂).moves hne
  · obtain ⟨hcode, hmode, hrun, hpos⟩ := h.trans h₂
    exact ⟨hcode, hmode, by rw [hrun, Bool.and_true], fun _ => hne,
      .inr ⟨dest, hi, by rw [hpos, hto]⟩⟩

/-- Behind a variable that has been stored. -/
theorem keeps_storing {name : String} (hname : Store.Settable I name)
    {x : Machine → Except Error Value} (hx : Value.OnlyMismatch (x m₁)) (hi : i ≠ .stop) :
    Keeps I (i.Moves next m)
      (do effect fun m => do m.setVariable name (← x m)
          return true : Exec σ Bool) m₁ := by
  refine (keeps_setVariable hname hx).bind fun _ m₂ h₂ => ?_
  rw [h.position] at h₂
  exact keeps_behind (h.trans h₂) hi

end

end Exec

open Exec in
/-- An instruction whose jump goes to an address of the stream fails only as a script
may fail, and keeps an invariant that storing into its target keeps. -/
theorem Instruction.keeps_perform {host : Host σ} {I : Store × σ → Prop} {P : UInt16 × Args → Prop}
    {m : Machine} (hhost : host.Respects m.mode I P) {i : Instruction} (hl : i.Legible)
    (hcalls : ∀ x ∈ i.calls, P x)
    (htarget : ∀ name, i.target? = some name → Store.Settable I name)
    (hdest : ∀ dest, i.dest? = some dest → ∃ b, b < m.code.size ∧ dest.toInt = b) (next : Nat) :
    Keeps I (i.Moves next m) (i.perform host next) m := by
  cases i with
  | stop =>
    intro s hs
    refine ⟨hs, rfl, rfl, ?_, ?_, .inl rfl⟩
    · exact (Bool.and_false _).symm
    · rintro ⟨⟩
  | assign how name e =>
    exact (keeps_work (e.keeps_eval hhost hl.2 hcalls)).bind fun v m₁ h₁ =>
      keeps_storing h₁ (htarget name rfl) (Value.onlyMismatch_combine how _ v) fun h => by cases h
  | increment name | decrement name =>
    exact (keeps_advance next).bind fun _ m₁ h₁ =>
      keeps_storing h₁ (htarget name rfl) (x := fun m => .ok _)
        (Value.onlyMismatch_ok _) fun h => by cases h
  | unlessGoto e dest =>
    refine (keeps_work (e.keeps_eval hhost hl hcalls)).bind fun v m₁ h₁ => ?_
    dsimp only
    split
    · exact keeps_jumping h₁ rfl (hdest dest rfl)
    · exact keeps_behind h₁ fun h => by cases h
  | unlessCaseGoto e dest =>
    refine (keeps_work (e.keeps_eval hhost hl hcalls)).bind fun v m₁ h₁ => .get fun s => ?_
    dsimp only
    split
    · split
      · exact keeps_behind h₁ fun h => by cases h
      · exact keeps_jumping h₁ rfl (hdest dest rfl)
      · rename_i err heq
        intro s hs
        refine ⟨hs, ?_⟩
        rw [(Value.onlyMismatch_same _ _).kind heq]
        rfl
    · exact keeps_behind h₁ fun h => by cases h
  | goto dest =>
    exact (keeps_advance next).bind fun _ m₁ h₁ => keeps_jumping h₁ rfl (hdest dest rfl)
  | func code args =>
    refine (keeps_work (Operand.keeps_eval hhost (o := .call code args) hl hcalls)).bind
      fun v m₁ h₁ => ?_
    exact keeps_behind h₁ fun h => by cases h
  | push name =>
    refine (keeps_advance next).bind fun _ m₁ h₁ => .get fun s => ?_
    refine (keeps_onStack fun st e st' he => ?_).bind fun _ m₂ h₂ => ?_
    · rw [Stack.eq_of_push_eq_error he]
      rfl
    · rw [h₁.position] at h₂
      exact keeps_behind (h₁.trans h₂) fun h => by cases h
  | pop name =>
    refine (keeps_advance next).bind fun _ m₁ h₁ => ?_
    refine (keeps_onStack fun st e st' he => ?_).bind fun v m₂ h₂ => ?_
    · rw [Stack.eq_of_pop_eq_error he]
      rfl
    · rw [h₁.position] at h₂
      exact keeps_storing (h₁.trans h₂) (htarget name rfl) (x := fun _ => .ok v)
        (Value.onlyMismatch_ok _)
        fun h => by cases h

-- ============================================================================
-- Closed streams
-- ============================================================================

/-- Behind an instruction that is not the last stands another one. -/
theorem Instruction.next_mem_located {is : List Instruction} {address a : Nat} {i : Instruction}
    (h : (a, i) ∈ located address is) (hlast : is.getLast? = some .stop) (hi : i ≠ .stop) :
    ∃ j, (a + i.bytes.length, j) ∈ located address is := by
  induction is generalizing address with
  | nil => cases h
  | cons k ks ih =>
    rcases List.mem_cons.1 h with heq | htail
    · cases heq
      cases ks with
      | nil => exact absurd (Option.some.inj hlast) hi
      | cons j js => exact ⟨j, List.mem_cons_of_mem _ List.mem_cons_self⟩
    · have hne : ks ≠ [] := by
        rintro rfl
        cases htail
      rw [List.getLast?_cons_of_ne_nil hne] at hlast
      obtain ⟨j, hj⟩ := ih htail hlast
      exact ⟨j, List.mem_cons_of_mem _ hj⟩

namespace Code

variable {c : Code} {l : List (Nat × Instruction)}

/-- The stream reads as `l`, the last instruction stops, and every jump goes to the
start of an instruction. -/
structure Closed (c : Code) (l : List (Nat × Instruction)) : Prop where
  reading : c.instructions = .ok l
  stops : ∃ a, l.getLast? = some (a, .stop)
  lands : ∀ a i, (a, i) ∈ l → ∀ dest, i.dest? = some dest → ∃ b j, (b, j) ∈ l ∧ dest.toInt = b

/-- An instruction of the reading stands in the stream. -/
theorem has_of_mem_located {is : List Instruction} {p a : Nat} {i : Instruction}
    (hl : ∀ i ∈ is, i.Legible) (h : c.Holds p (Instruction.stream is))
    (hi : (a, i) ∈ Instruction.located p is) : c.Has a i (a + i.bytes.length) := by
  induction is generalizing p with
  | nil => cases hi
  | cons k ks ih =>
    obtain ⟨hk, hks⟩ := List.forall_mem_cons.1 hl
    rw [Instruction.stream_cons] at h
    rcases List.mem_cons.1 hi with heq | htail
    · cases heq
      exact ⟨hk, h.append_left, rfl⟩
    · exact ih hks h.append_right htail

theorem has_of_mem {a : Nat} {i : Instruction} (h : c.instructions = .ok l) (hi : (a, i) ∈ l) :
    c.Has a i (a + i.bytes.length) := by
  obtain ⟨is, hl, hbytes, rfl⟩ := instructions_eq_ok_iff.1 h
  have hholds : c.Holds 0 (Instruction.stream is) :=
    @holds_of_toList c [] _ [] (by simpa using hbytes)
  exact has_of_mem_located hl hholds hi

theorem Has.lt_size {a q : Nat} {i : Instruction} (h : c.Has a i q) : a < c.size := by
  have htwo := i.two_le_length_bytes
  have hle := h.holds.le_size (List.ne_nil_of_length_pos (by omega))
  omega

theorem Closed.next {a : Nat} {i : Instruction} (h : c.Closed l) (hi : (a, i) ∈ l)
    (hne : i ≠ .stop) : ∃ j, (a + i.bytes.length, j) ∈ l := by
  obtain ⟨is, _, _, rfl⟩ := instructions_eq_ok_iff.1 h.reading
  obtain ⟨b, hlast⟩ := h.stops
  refine Instruction.next_mem_located hi ?_ hne
  rw [← Instruction.map_snd_located 0 is, List.getLast?_map, hlast]
  rfl

end Code

-- ============================================================================
-- Runs
-- ============================================================================

/-- The machine is loaded with the stream and, as long as it runs, stands at the start
of one of its instructions. -/
structure Machine.OnTrack (c : Code) (l : List (Nat × Instruction)) (mode : Mode) (m : Machine) :
    Prop where
  code : m.code = c
  mode : m.mode = mode
  start : m.running = true → ∃ i, (m.position, i) ∈ l

/-- The instruction at which a machine stands that runs closed code. -/
theorem Machine.OnTrack.instruction {c : Code} {l : List (Nat × Instruction)} {mode : Mode}
    {m : Machine} (h : m.OnTrack c l mode) (hc : c.Closed l) (hrun : m.running = true) :
    ∃ i, (m.position, i) ∈ l ∧ i.Legible ∧ m.code.Holds m.position i.bytes ∧
      ∀ dest, i.dest? = some dest → ∃ b, b < m.code.size ∧ dest.toInt = b := by
  obtain ⟨rfl, _, hstart⟩ := h
  obtain ⟨i, hi⟩ := hstart hrun
  have hhas := Code.has_of_mem hc.reading hi
  refine ⟨i, hi, hhas.legible, hhas.holds, ?_⟩
  intro dest hd
  obtain ⟨b, j, hj, hto⟩ := hc.lands _ i hi dest hd
  exact ⟨b, (Code.has_of_mem hc.reading hj).lt_size, hto⟩

namespace Exec

section
variable {host : Host σ} {mode : Mode} {I : Store × σ → Prop} {P : UInt16 × Args → Prop} {c : Code}
  {l : List (Nat × Instruction)} (hhost : host.Respects mode I P)
  (hreport : ∀ text store s, I (store, s) → I (store, host.report text s)) (hc : c.Closed l)
  (hcalls : ∀ a i, (a, i) ∈ l → ∀ x ∈ i.calls, P x)
  (htargets : ∀ a i, (a, i) ∈ l → ∀ name, i.target? = some name → Store.Settable I name)
include hhost hreport hc hcalls htargets

/-- One step of a machine on a closed stream. -/
theorem step_closed {m : Machine} (hm : m.OnTrack c l mode) :
    Keeps I (fun _ m' => m'.OnTrack c l mode) (step host) m := by
  intro s hs
  unfold step
  dsimp only
  by_cases hrun : m.running = true
  · rw [if_pos hrun]
    obtain ⟨i, hi, hlegible, hholds, hdest⟩ := hm.instruction hc hrun
    obtain ⟨rfl, rfl, _⟩ := hm
    have hperform := i.keeps_perform hhost hlegible (hcalls _ i hi) (htargets _ i hi) hdest
      (m.position + i.bytes.length) s hs
    have hagree : Agrees (instruction host (m, s)) _ := instruction_of_holds hlegible hholds
    cases hr : i.perform host (m.position + i.bytes.length) (m, s) with
    | ok more w =>
      rw [hr] at hperform hagree
      obtain ⟨hw, hcode, hmode, hrunning, hgoes, hplace⟩ := hperform
      have hi' : instruction host (m, s) = .ok more w := hagree
      rw [hi']
      refine ⟨hw, hcode, hmode, fun hgo => ?_⟩
      -- a machine that still runs has not executed a `stop`
      rw [hrunning, Bool.and_eq_true] at hgo
      rcases hplace with hnext | ⟨dest, hd, hto⟩
      · rw [hnext]
        exact hc.next hi (hgoes hgo.2)
      · obtain ⟨b, j, hj, hb⟩ := hc.lands _ i hi dest hd
        have hpos : w.1.position = b := by omega
        rw [hpos]
        exact ⟨j, hj⟩
    | error e w =>
      rw [hr] at hperform hagree
      obtain ⟨q, hi'⟩ := hagree
      rw [hi']
      exact ⟨hreport _ _ _ hperform.1, hperform.2⟩
  · rw [if_neg hrun]
    exact ⟨hs, hm⟩

/-- Any number of steps of a machine on a closed stream. -/
theorem steps_closed (n : Nat) {m : Machine} (hm : m.OnTrack c l mode) :
    Keeps I (fun _ m' => m'.OnTrack c l mode) (steps host n) m := by
  induction n generalizing m with
  | zero => exact .pure hm
  | succ n ih =>
    refine (step_closed hhost hreport hc hcalls htargets hm).bind fun more m' hm' => ?_
    split
    · exact ih hm'
    · exact .pure hm'

end

/-- Closed code keeps its machine on the track, whatever the host does. -/
theorem steps_onTrack {c : Code} {l : List (Nat × Instruction)} (hc : c.Closed l) (host : Host σ)
    {mode : Mode} {m : Machine} (hm : m.OnTrack c l mode) (n : Nat) :
    Keeps (fun _ => True) (fun _ m' => m'.OnTrack c l mode) (steps host n) m :=
  steps_closed (host.respects_true mode fun _ => True) (fun _ _ _ _ => trivial) hc
    (fun _ _ _ _ _ => trivial) (fun _ _ _ _ _ _ _ _ _ _ _ => trivial) n hm

end Exec

namespace Machine

/-- A run that starts inside the stream begins with no variables but `NULL` and with an
empty stack. -/
theorem start_eq_ok {c : Code} {p : Nat} (hp : p < c.size) (lock : Bool) (m₀ : Machine) :
    start c p lock m₀ = .ok () { m₀ with
      code := c, position := p, store := .initial, stack := m₀.stack.clear, mode := .run
      gotoLock := lock, running := true, interrupted := false } := by
  have hload : load c p m₀ = .ok () { m₀ with code := c, position := p } := by
    rw [load, Code.seek, if_pos hp]
  simp only [start, bind, EStateM.bind, hload]
  rfl

/-- A run from an instruction begins on the track. -/
theorem start_onTrack {c : Code} {l : List (Nat × Instruction)} {p : Nat} {i : Instruction}
    (h : c.instructions = .ok l) (hp : (p, i) ∈ l) (lock : Bool) (m₀ : Machine) :
    ∃ m, start c p lock m₀ = .ok () m ∧ m.OnTrack c l .run :=
  ⟨_, start_eq_ok (Code.has_of_mem h hp).lt_size lock m₀, rfl, rfl, fun _ => ⟨i, hp⟩⟩

/-- Closed code can not go wrong in the decoder.  From whatever instruction a run starts,
with jumps on or off and whatever the host does to the variables, a machine that runs
stands at the start of an instruction between any two steps, and no step fails because
the stream ends or is not understood, an address lies outside or an expression is
malformed. -/
theorem closed_code_runs_safely {c : Code} {l : List (Nat × Instruction)} (hc : c.Closed l)
    {p : Nat} {i : Instruction} (hp : (p, i) ∈ l) (host : Host σ) (lock : Bool) (m₀ : Machine)
    (s : σ) :
    ∃ m, start c p lock m₀ = .ok () m ∧ ∀ n,
      (∀ b m' s', Exec.steps host n (m, s) = .ok b (m', s') → m'.running = true →
        ∃ j, (m'.position, j) ∈ l) ∧
      (∀ e w, Exec.steps host n (m, s) = .error e w →
        e.kind ∉ [.unexpectedEnd, .unexpectedTag, .illegalOpcode, .illegalOperator,
          .addressOutOfRange, .internalError]) := by
  obtain ⟨m, hstart, hm⟩ := start_onTrack hc.reading hp lock m₀
  refine ⟨m, hstart, fun n => ?_⟩
  have hsteps := Exec.steps_onTrack hc host hm n s trivial
  refine ⟨fun b m' s' hr => ?_, fun e w hr => ?_⟩
  · rw [hr] at hsteps
    exact hsteps.2.start
  · rw [hr] at hsteps
    exact ErrorKind.not_mem_of_ofScript hsteps.2

/-- A loop that calls a function on the result of another one and never reaches its
`stop`. -/
def callingLoop : List Instruction :=
  [.func 1 (.cons .str (.last (.call 2 .nil)) .nil), .unlessGoto (.last (.num 0)) 0, .stop]

theorem callingLoop_closed :
    Code.Closed (Instruction.stream callingLoop).toArray (Instruction.located 0 callingLoop) := by
  refine ⟨Code.instructions_of_toList ?_ rfl, ⟨_, rfl⟩, ?_⟩
  · simp [callingLoop, Instruction.Legible, Args.Legible, Expression.Legible, Operand.Legible,
      Param.isEmitted]
  · intro a i hi dest hdest
    simp only [callingLoop, Instruction.located, List.mem_cons, Prod.mk.injEq, List.not_mem_nil,
      or_false] at hi
    rcases hi with ⟨rfl, rfl⟩ | ⟨rfl, rfl⟩ | ⟨rfl, rfl⟩
    · cases hdest
    · cases hdest
      exact ⟨0, _, List.mem_cons_self, rfl⟩
    · cases hdest

theorem callingLoop_runs_safely :
    ∃ m, start (Instruction.stream callingLoop).toArray 0 false {} = .ok () m ∧ ∀ n,
      (∀ b m' s', Exec.steps Host.mute n (m, ()) = .ok b (m', s') → m'.running = true →
        ∃ j, (m'.position, j) ∈ Instruction.located 0 callingLoop) ∧
      (∀ e w, Exec.steps Host.mute n (m, ()) = .error e w →
        e.kind ∉ [.unexpectedEnd, .unexpectedTag, .illegalOpcode, .illegalOperator,
          .addressOutOfRange, .internalError]) :=
  closed_code_runs_safely callingLoop_closed List.mem_cons_self _ false {} ()

end Machine

end ScriptMachine
