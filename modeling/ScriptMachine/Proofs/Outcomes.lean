/-
  ScriptMachine.Proofs.Outcomes

  What an instruction can come to, whatever bytes it is made of.  A read that fails can
  be placed: the error is at an address it has come to (`Failure.Placed`).  Between the
  reads an instruction does nothing but ask the host (`Host.Asks`), until it takes its
  effect; behind its effect nothing fails any more.  So an instruction either fails with
  all else as the host left it (`Exec.Failed`), or it stays in its stream and, where jumps
  are off, has gone on by two bytes at least (`Exec.Done`).
-/

import Mathlib.Logic.Relation
import ScriptMachine.Proofs.Loading

namespace ScriptMachine

variable {σ α β : Type}

-- ============================================================================
-- Reads
-- ============================================================================

/-- From `p` on every address of the stream satisfies `A`. -/
structure Code.Covers (c : Code) (A : Nat → Prop) (p : Nat) : Prop where
  inside : p ≤ c.size
  covers : ∀ a, p ≤ a → a ≤ c.size → A a

/-- The failure is that of a stream or a script, not one of the machine itself; reading
stopped inside the stream, and the address of the error, if it has one, satisfies `A`. -/
structure Failure.Placed (c : Code) (A : Nat → Prop) (f : Failure) : Prop where
  inside : f.position ≤ c.size
  kind : f.error.kind ≠ .internalError
  address : ∀ a, f.error.address = some a → A a

namespace Code

variable {c : Code} {A : Nat → Prop} {p : Nat}

theorem Covers.self (h : c.Covers A p) : A p :=
  h.covers p (Nat.le_refl p) h.inside

theorem Covers.forward {q : Nat} (h : c.Covers A p) (hpq : p ≤ q) (hq : q ≤ c.size) :
    c.Covers A q :=
  ⟨hq, fun a ha => h.covers a (Nat.le_trans hpq ha)⟩

theorem Covers.past (h : c.Covers A p) (q : c.Past p) : c.Covers A q.1 :=
  h.forward (Nat.le_of_lt q.2.1) q.2.2

/-- An error at an address that reading has come to. -/
theorem Covers.placed {q : Nat} (h : c.Covers A p) (cause : Cause)
    (hkind : (cause.kind == .internalError) = false) (hq : q ≤ c.size) :
    Failure.Placed c A ⟨(Error.of cause).atAddress p, q⟩ := by
  refine ⟨hq, beq_eq_false_iff_ne.1 hkind, ?_⟩
  rintro a ⟨⟩
  exact h.self

theorem Covers.placed_endOfCode (h : c.Covers A p) (wanted : Nat) :
    (c.endOfCode wanted p).Placed c A :=
  h.placed (.endOfCode wanted p c.size) rfl h.inside

/-- The read fails only where it can be placed. -/
def FailsIn (c : Code) (A : Nat → Prop) (x : Except Failure α) : Prop :=
  ∀ f, x = .error f → f.Placed c A

theorem failsIn_ok (a : α) : c.FailsIn A (.ok a) := by
  rintro f ⟨⟩

theorem failsIn_error {f : Failure} (h : f.Placed c A) :
    c.FailsIn A (.error f : Except Failure α) := by
  rintro _ ⟨⟩
  exact h

theorem FailsIn.bind {x : Except Failure α} {f : α → Except Failure β} (h : c.FailsIn A x)
    (hf : ∀ a, x = .ok a → c.FailsIn A (f a)) : c.FailsIn A (x >>= f) := by
  cases x with
  | error e =>
    rintro _ ⟨⟩
    exact h e rfl
  | ok a => exact hf a rfl

section
variable (h : c.Covers A p)
include h

theorem failsIn_byte : c.FailsIn A (c.byte p) := by
  by_cases hlt : p < c.size
  · rw [byte_of_lt hlt]
    exact failsIn_ok _
  · rw [byte_of_size_le (Nat.not_lt.1 hlt)]
    exact failsIn_error (h.placed_endOfCode 1)

theorem failsIn_take (n : Nat) : c.FailsIn A (c.take n p) := by
  unfold take
  split
  · exact failsIn_ok _
  · exact failsIn_error (h.placed_endOfCode (n + 1))

theorem failsIn_word : c.FailsIn A (c.word p) :=
  (failsIn_take h 1).bind fun _ _ => failsIn_ok _

theorem failsIn_number : c.FailsIn A (c.number p) :=
  (failsIn_take h 7).bind fun _ _ => failsIn_ok _

theorem failsIn_text : c.FailsIn A (c.text p) := by
  refine (failsIn_word h).bind ?_
  rintro ⟨size, q⟩ _
  dsimp only
  split
  · exact failsIn_error (h.placed .emptyText rfl q.2.2)
  · refine (failsIn_take (h.past q) _).bind fun bs _ => ?_
    split
    · split
      · exact failsIn_ok _
      · exact failsIn_error (h.placed .invalidText rfl bs.2.2.2)
    · exact failsIn_error (h.placed .unterminatedText rfl bs.2.2.2)

theorem failsIn_tag : c.FailsIn A (c.tag p) := by
  refine (failsIn_byte h).bind fun b _ => ?_
  dsimp only
  split
  · exact failsIn_ok _
  · exact failsIn_error (h.placed (.unknownTag _) rfl b.2.2.2)

theorem failsIn_expect (t : Tag) : c.FailsIn A (c.expect t p) := by
  refine (failsIn_byte h).bind fun b _ => ?_
  dsimp only
  split
  · exact failsIn_ok _
  · exact failsIn_error (h.placed (.unexpectedTag ..) rfl b.2.2.2)

theorem failsIn_opcode : c.FailsIn A (c.opcode p) := by
  refine (failsIn_expect h .code).bind fun t _ => ?_
  refine (failsIn_byte (h.past t.2)).bind fun b _ => ?_
  dsimp only
  split
  · exact failsIn_ok _
  · exact failsIn_error ((h.past t.2).placed (.unknownOpcode _) rfl b.2.2.2)

theorem failsIn_tagged (t : Tag) {read : (position : Nat) → c.Read α position}
    (hread : ∀ q, c.Covers A q → c.FailsIn A (read q)) : c.FailsIn A (c.tagged t read p) :=
  (failsIn_expect h t).bind fun t _ => (hread _ (h.past t.2)).bind fun _ _ => failsIn_ok _

theorem failsIn_taggedNumber : c.FailsIn A (c.taggedNumber p) :=
  failsIn_tagged h .num fun _ => failsIn_number

theorem failsIn_taggedName : c.FailsIn A (c.taggedName p) :=
  failsIn_tagged h .var fun _ => failsIn_text

end

/-- An instruction code takes two bytes. -/
theorem add_two_le_of_opcode {o : Opcode} {q : c.Past p} (h : c.opcode p = .ok (o, q)) :
    p + 2 ≤ q.1 := by
  obtain ⟨⟨_, t⟩, _, h⟩ := except_bind_eq_ok h
  obtain ⟨⟨b, u⟩, _, h⟩ := except_bind_eq_ok h
  dsimp only at h
  have ht := t.2.1
  have hu := u.2.1
  split at h
  · cases h
    exact Nat.lt_of_le_of_lt ht hu
  · cases h

end Code

-- ============================================================================
-- Evaluations
-- ============================================================================

/-- What one request to the host makes of the variables and of its state, whether it
answers or refuses. -/
def Host.AsksOnce (host : Host σ) (mode : Mode) (w w' : Store × σ) : Prop :=
  ∃ code args p, (match Eval.invoke host mode code args p w with
    | .ok _ v => v
    | .error _ v => v) = w'

/-- What any number of requests to the host make of the variables and of its state. -/
def Host.Asks (host : Host σ) (mode : Mode) : Store × σ → Store × σ → Prop :=
  Relation.ReflTransGen (host.AsksOnce mode)

/-- The errors of the host have addresses that satisfy `A`, if they have any. -/
def Host.ErrsAt (host : Host σ) (mode : Mode) (A : Nat → Prop) : Prop :=
  ∀ code args p w f w', Eval.invoke host mode code args p w = .error f w' →
    ∀ a, f.error.address = some a → A a

/-- Of a host whose errors may be anywhere nothing is asked. -/
theorem Host.errsAt_true (host : Host σ) (mode : Mode) : host.ErrsAt mode fun _ => True :=
  fun _ _ _ _ _ _ _ _ _ => trivial

namespace Eval

variable {host : Host σ} {mode : Mode} {c : Code} {A : Nat → Prop} {Q : α → Prop} {R : β → Prop}

/-- However the evaluation ends, it has only asked the host; its result satisfies `Q`, or
its failure can be placed. -/
def Ends (host : Host σ) (mode : Mode) (c : Code) (A : Nat → Prop) (Q : α → Prop)
    (x : Eval σ α) : Prop :=
  ∀ w, match x w with
    | .ok a w' => host.Asks mode w w' ∧ Q a
    | .error f w' => host.Asks mode w w' ∧ f.Placed c A

theorem Ends.bind {x : Eval σ α} {f : α → Eval σ β} (h : Ends host mode c A Q x)
    (hf : ∀ a, Q a → Ends host mode c A R (f a)) : Ends host mode c A R (x >>= f) := by
  intro w
  have hx := h w
  simp only [Bind.bind, EStateM.bind]
  cases hr : x w with
  | error e w' =>
    rw [hr] at hx
    exact hx
  | ok a w' =>
    rw [hr] at hx
    have hy := hf a hx.2 w'
    dsimp only
    cases hs : f a w' with
    | error e w'' =>
      rw [hs] at hy
      exact ⟨hx.1.trans hy.1, hy.2⟩
    | ok b w'' =>
      rw [hs] at hy
      exact ⟨hx.1.trans hy.1, hy.2⟩

theorem Ends.pure {a : α} (h : Q a) : Ends host mode c A Q (Pure.pure a : Eval σ α) :=
  fun _ => ⟨.refl, h⟩

theorem Ends.throw {f : Failure} (h : f.Placed c A) :
    Ends host mode c A Q (MonadExcept.throw f : Eval σ α) :=
  fun _ => ⟨.refl, h⟩

theorem ends_ofRead {x : Except Failure α} (h : c.FailsIn A x) :
    Ends host mode c A (fun _ => True) (ofRead x) := by
  intro w
  cases x with
  | ok a => exact ⟨.refl, trivial⟩
  | error f => exact ⟨.refl, h f rfl⟩

theorem ends_ofExcept {p : Nat} {x : Except Error α} (hp : p ≤ c.size) (h : Value.OnlyMismatch x) :
    Ends host mode c A (fun _ => True) (ofExcept p x) := by
  intro w
  cases x with
  | ok a => exact ⟨.refl, trivial⟩
  | error e =>
    obtain ⟨text, rfl⟩ := h e rfl
    exact ⟨.refl, hp, ErrorKind.noConfusion, fun a ha => by cases ha⟩

theorem ends_invoke (hhost : host.ErrsAt mode A) {p : Nat} (hp : p ≤ c.size) (code : UInt16)
    (args : List Value) : Ends host mode c A (fun _ => True) (invoke host mode code args p) := by
  intro w
  cases hr : invoke host mode code args p w with
  | ok v w' => exact ⟨.single ⟨code, args, p, by rw [hr]⟩, trivial⟩
  | error f w' =>
    refine ⟨.single ⟨code, args, p, by rw [hr]⟩, ?_, ?_, hhost code args p w f w' hr⟩
    all_goals
      unfold invoke at hr
      dsimp only at hr
      split at hr <;> split at hr <;> cases hr
    · exact hp
    · exact hp
    · rw [kind_callError]
      exact ErrorKind.noConfusion
    · rw [kind_callError]
      exact ErrorKind.noConfusion

mutual

theorem ends_expression (hhost : host.ErrsAt mode A) {p : Nat} (h : c.Covers A p) :
    Ends host mode c A (fun _ => True) (expression host mode c p) := by
  rw [expression]
  refine (ends_chain hhost h).bind fun r hr => ?_
  exact (ends_ofExcept r.2.2.2.2 (onlyMismatch_settle mode hr.1 hr.2)).bind fun v _ => .pure trivial
termination_by (c.size - p, 2)
decreasing_by exact Prod.Lex.right _ (by omega)

/-- There is one operand more than operators, and the operators end before the mark. -/
theorem ends_chain (hhost : host.ErrsAt mode A) {p : Nat} (h : c.Covers A p) :
    Ends host mode c A (fun r => r.1.length = r.2.1.length + 1 ∧ Operator.close ∉ r.2.1)
      (chain host mode c p) := by
  rw [chain]
  refine (ends_operand hhost h).bind fun v _ => ?_
  refine (ends_ofRead (Code.failsIn_byte (h.past v.2))).bind fun b _ => ?_
  have hlt : c.size - b.2.1 < c.size - p := by
    have := v.2.2
    have := b.2.2
    omega
  dsimp only
  split
  · exact .throw ((h.past v.2).placed (.unknownOperator _) rfl b.2.2.2)
  · exact .pure ⟨rfl, by simp⟩
  · rename_i op hop _
    refine (ends_chain hhost ((h.past v.2).past b.2)).bind fun r hr => .pure ⟨?_, ?_⟩
    · simp only [List.length_cons, hr.1]
    · simp only [List.mem_cons, not_or]
      exact ⟨fun hclose => hop hclose.symm, hr.2⟩
termination_by (c.size - p, 1)
decreasing_by
  · exact Prod.Lex.right _ (by omega)
  · exact Prod.Lex.left _ _ hlt

theorem ends_operand (hhost : host.ErrsAt mode A) {p : Nat} (h : c.Covers A p) :
    Ends host mode c A (fun _ => True) (operand host mode c p) := by
  rw [operand]
  refine (ends_ofRead (Code.failsIn_tag h)).bind fun tag _ => ?_
  have htag := h.past tag.2
  dsimp only
  split
  · exact (ends_ofRead (Code.failsIn_text htag)).bind fun s _ => .pure trivial
  · exact (ends_ofRead (Code.failsIn_number htag)).bind fun n _ => .pure trivial
  · refine (ends_ofRead (Code.failsIn_text htag)).bind fun name _ => ?_
    have hfetch : Ends host mode c A (fun _ => True) (fetch name.1) := fun _ => ⟨.refl, trivial⟩
    exact hfetch.bind fun v _ => .pure trivial
  · refine (ends_ofRead (Code.failsIn_opcode htag)).bind fun opcode _ => ?_
    have hlt : c.size - opcode.2.1 < c.size - p := by
      have := tag.2.2
      have := opcode.2.2
      omega
    split
    · exact (ends_call hhost (htag.past opcode.2)).bind fun v _ => .pure trivial
    · refine ends_ofRead (Code.failsIn_error (h.placed (.callTo _) rfl opcode.2.2.2))
  · exact ends_ofRead (Code.failsIn_error (h.placed .codeInExpression rfl tag.2.2.2))
termination_by (c.size - p, 0)
decreasing_by exact Prod.Lex.left _ _ hlt

theorem ends_call (hhost : host.ErrsAt mode A) {p : Nat} (h : c.Covers A p) :
    Ends host mode c A (fun _ => True) (call host mode c p) := by
  rw [call]
  refine (ends_ofRead (Code.failsIn_word h)).bind fun code _ => ?_
  have hlt : c.size - code.2.1 < c.size - p := by
    have := code.2.2
    omega
  refine (ends_arguments hhost (h.past code.2)).bind fun args _ => ?_
  exact (ends_invoke hhost args.2.2.2 _ _).bind fun v _ => .pure trivial
termination_by (c.size - p, 0)
decreasing_by exact Prod.Lex.left _ _ hlt

theorem ends_arguments (hhost : host.ErrsAt mode A) {p : Nat} (h : c.Covers A p) :
    Ends host mode c A (fun _ => True) (arguments host mode c p) := by
  rw [arguments]
  refine (ends_ofRead (Code.failsIn_byte h)).bind fun b _ => ?_
  dsimp only
  split
  · exact .pure trivial
  · split
    · exact .throw (h.placed (.unknownParam _) rfl b.2.2.2)
    · have hlt : c.size - b.2.1 < c.size - p := by
        have := b.2.2
        omega
      refine (ends_expression hhost (h.past b.2)).bind fun v _ => ?_
      have hlt' : c.size - v.2.1 < c.size - p := by
        have := b.2.2
        have := v.2.2
        omega
      refine (ends_ofExcept v.2.2.2 (Value.onlyMismatch_argument _ _)).bind fun u _ => ?_
      exact (ends_arguments hhost ((h.past b.2).past v.2)).bind fun args _ => .pure trivial
termination_by (c.size - p, 0)
decreasing_by
  · exact Prod.Lex.left _ _ hlt
  · exact Prod.Lex.left _ _ hlt'

end

end Eval

-- ============================================================================
-- Instructions
-- ============================================================================

/-- The error is not one of the machine itself, and no address is known of it yet. -/
structure Error.Bare (e : Error) : Prop where
  kind : e.kind ≠ .internalError
  address : e.address = none

theorem Error.Bare.of (cause : Cause) (h : (cause.kind == .internalError) = false) :
    (Error.of cause).Bare :=
  ⟨beq_eq_false_iff_ne.1 h, rfl⟩

theorem Value.OnlyMismatch.bare {x : Except Error α} (h : OnlyMismatch x) {e : Error}
    (he : x = .error e) : e.Bare := by
  obtain ⟨text, rfl⟩ := h e he
  exact .of _ rfl

namespace Exec

variable {host : Host σ} {A : Nat → Prop} {w w' w'' : Machine × σ} {n : Nat} {e : Error}

/-- From `w` to `w'` the machine has read `n` bytes or more and has only asked the host. -/
structure Follows (host : Host σ) (n : Nat) (w w' : Machine × σ) : Prop where
  code : w'.1.code = w.1.code
  mode : w'.1.mode = w.1.mode
  gotoLock : w'.1.gotoLock = w.1.gotoLock
  inside : w'.1.position ≤ w.1.code.size
  onward : w.1.position + n ≤ w'.1.position
  asks : host.Asks w.1.mode (w.1.store, w.2) (w'.1.store, w'.2)

/-- From `w` to `w'` the machine has taken its effect.  It is where it was loaded, and
where jumps are off it is `n` bytes further on or more. -/
structure Done (n : Nat) (w w' : Machine × σ) : Prop where
  code : w'.1.code = w.1.code
  mode : w'.1.mode = w.1.mode
  gotoLock : w'.1.gotoLock = w.1.gotoLock
  inside : w'.1.position ≤ w.1.code.size
  onward : w.1.mode = .scan ∨ w.1.gotoLock = true → w.1.position + n ≤ w'.1.position

/-- From `w` on the machine has failed with `e`, without any effect but that of the host. -/
structure Failed (host : Host σ) (A : Nat → Prop) (w : Machine × σ) (e : Error)
    (w' : Machine × σ) : Prop where
  code : w'.1.code = w.1.code
  mode : w'.1.mode = w.1.mode
  inside : w'.1.position ≤ w.1.code.size
  kind : e.kind ≠ .internalError
  address : ∀ a, e.address = some a → A a
  asks : host.Asks w.1.mode (w.1.store, w.2) (w'.1.store, w'.2)

/-- What a step has to find: the rest of the stream is covered, and so are the errors of
the host. -/
structure Ready (host : Host σ) (A : Nat → Prop) (w : Machine × σ) : Prop where
  covers : w.1.code.Covers A w.1.position
  host : host.ErrsAt w.1.mode A

theorem Follows.ready (h : Follows host n w w') (hw : Ready host A w) : Ready host A w' := by
  have hforward := hw.covers.forward (Nat.le_of_add_right_le h.onward) h.inside
  exact ⟨h.code ▸ hforward, h.mode ▸ hw.host⟩

theorem Follows.done (h : Follows host n w w') (k : Done 0 w' w'') : Done n w w'' := by
  refine ⟨k.code.trans h.code, k.mode.trans h.mode, k.gotoLock.trans h.gotoLock, ?_, ?_⟩
  · rw [← h.code]
    exact k.inside
  · intro hoff
    rw [← h.mode, ← h.gotoLock] at hoff
    exact Nat.le_trans h.onward (k.onward hoff)

theorem Follows.failed (h : Follows host n w w') (k : Failed host A w' e w'') :
    Failed host A w e w'' := by
  refine ⟨k.code.trans h.code, k.mode.trans h.mode, ?_, k.kind, k.address, h.asks.trans ?_⟩
  · rw [← h.code]
    exact k.inside
  · rw [← h.mode]
    exact k.asks

/-- The machine stands still. -/
theorem Ready.done (hw : Ready host A w) : Done 0 w w :=
  ⟨rfl, rfl, rfl, hw.covers.inside, fun _ => Nat.le_refl _⟩

/-- An error without an address, where the machine stands. -/
theorem Ready.failed (hw : Ready host A w) (he : e.Bare) : Failed host A w e w := by
  refine ⟨rfl, rfl, hw.covers.inside, he.kind, fun a ha => ?_, .refl⟩
  rw [he.address] at ha
  cases ha

/-- The step reads on, or fails. -/
def Reads (host : Host σ) (A : Nat → Prop) (n : Nat) (x : Exec σ α) (w : Machine × σ) : Prop :=
  match x w with
  | .ok _ w' => Follows host n w w'
  | .error e w' => Failed host A w e w'

/-- The step takes its effect, or fails without one. -/
def Concludes (host : Host σ) (A : Nat → Prop) (n : Nat) (x : Exec σ α) (w : Machine × σ) :
    Prop :=
  match x w with
  | .ok _ w' => Done n w w'
  | .error e w' => Failed host A w e w'

theorem Reads.bind {x : Exec σ α} {f : α → Exec σ β} (h : Reads host A n x w)
    (hw : Ready host A w) (hf : ∀ a w', Ready host A w' → Concludes host A 0 (f a) w') :
    Concludes host A n (x >>= f) w := by
  unfold Reads at h
  unfold Concludes
  simp only [Bind.bind, EStateM.bind]
  cases hr : x w with
  | error e w' =>
    rw [hr] at h
    exact h
  | ok a w' =>
    rw [hr] at h
    have hy := hf a w' (h.ready hw)
    unfold Concludes at hy
    dsimp only
    cases hs : f a w' with
    | error e w'' =>
      rw [hs] at hy
      exact h.failed hy
    | ok b w'' =>
      rw [hs] at hy
      exact h.done hy

/-- Behind the effect a step has only a result to give. -/
theorem Concludes.result {x : Exec σ α} (h : Concludes host A n x w) (b : β) :
    Concludes host A n (x >>= fun _ => Pure.pure b) w := by
  unfold Concludes at h ⊢
  simp only [Bind.bind, EStateM.bind]
  cases hr : x w with
  | error e w' =>
    rw [hr] at h
    exact h
  | ok a w' =>
    rw [hr] at h
    exact h

theorem concludes_pure (hw : Ready host A w) (a : α) :
    Concludes host A 0 (Pure.pure a : Exec σ α) w :=
  hw.done

theorem concludes_throw (hw : Ready host A w) (he : e.Bare) :
    Concludes host A 0 (MonadExcept.throw e : Exec σ α) w :=
  hw.failed he

/-- A look at the state in front of a step. -/
theorem concludes_get {f : Machine × σ → Exec σ β} (h : Concludes host A n (f w) w) :
    Concludes host A n (MonadState.get >>= f) w :=
  h

section
variable (hw : Ready host A w)
include hw

/-- A read that goes over `n` bytes at least. -/
theorem reads_read_of {f : (c : Code) → (p : Nat) → c.Read α p}
    (h : ∀ (c : Code) p, c.Covers A p → c.FailsIn A (f c p))
    (hn : ∀ c p a q, f c p = .ok (a, q) → p + n ≤ q.1) : Reads host A n (read f) w := by
  obtain ⟨m, s⟩ := w
  have hfail := h m.code m.position hw.covers
  unfold Reads read
  dsimp only
  cases hr : f m.code m.position with
  | ok r => exact ⟨rfl, rfl, rfl, r.2.2.2, hn _ _ _ _ hr, .refl⟩
  | error f' =>
    obtain ⟨hinside, hkind, haddress⟩ := hfail f' hr
    exact ⟨rfl, rfl, hinside, hkind, haddress, .refl⟩

theorem reads_read {f : (c : Code) → (p : Nat) → c.Read α p}
    (h : ∀ (c : Code) p, c.Covers A p → c.FailsIn A (f c p)) : Reads host A 0 (read f) w :=
  reads_read_of hw h fun _ _ _ q _ => Nat.le_of_lt q.2.1

theorem reads_name : Reads host A 0 (read Code.taggedName) w :=
  reads_read hw fun _ _ => Code.failsIn_taggedName

theorem reads_number : Reads host A 0 (read Code.taggedNumber) w :=
  reads_read hw fun _ _ => Code.failsIn_taggedNumber

theorem reads_evaluate
    {f : (mode : Mode) → (c : Code) → (p : Nat) → Eval σ (Value × c.Past p)}
    (h : Eval.Ends host w.1.mode w.1.code A (fun _ => True)
      (f w.1.mode w.1.code w.1.position)) : Reads host A 0 (evaluate f) w := by
  obtain ⟨m, s⟩ := w
  have hends := h (m.store, s)
  unfold Reads evaluate
  dsimp only at hends ⊢
  cases hr : f m.mode m.code m.position (m.store, s) with
  | ok r v =>
    rw [hr] at hends
    exact ⟨rfl, rfl, rfl, r.2.2.2, Nat.le_of_lt r.2.2.1, hends.1⟩
  | error f' v =>
    rw [hr] at hends
    obtain ⟨hasks, hinside, hkind, haddress⟩ := hends
    exact ⟨rfl, rfl, hinside, hkind, haddress, hasks⟩

theorem reads_expression : Reads host A 0 (evaluate (Eval.expression host)) w :=
  reads_evaluate hw (Eval.ends_expression hw.host hw.covers)

/-- The stack is no place of the stream and no variable. -/
theorem reads_onStack {x : EStateM Error (Stack Value) α} {skipped : α}
    (hx : ∀ e stack, x w.1.stack = .error e stack → e.Bare) :
    Reads host A 0 (onStack x skipped) w := by
  obtain ⟨m, s⟩ := w
  unfold Reads onStack
  dsimp only at hx ⊢
  by_cases hscan : m.mode = .scan
  · rw [if_pos hscan]
    exact ⟨rfl, rfl, rfl, hw.covers.inside, Nat.le_refl _, .refl⟩
  · rw [if_neg hscan]
    cases hr : x m.stack with
    | ok a stack => exact ⟨rfl, rfl, rfl, hw.covers.inside, Nat.le_refl _, .refl⟩
    | error e stack =>
      obtain ⟨hcode, hmode, hinside, hkind, haddress, _⟩ := hw.failed (hx e stack hr)
      exact ⟨hcode, hmode, hinside, hkind, haddress, .refl⟩

/-- A variable is stored behind everything that can fail. -/
theorem concludes_setVariable {name : String} {x : Machine → Except Error Value}
    (hx : ∀ e, x w.1 = .error e → e.Bare) :
    Concludes host A 0 (effect fun m => do m.setVariable name (← x m)) w := by
  obtain ⟨m, s⟩ := w
  unfold Concludes effect change
  dsimp only at hx ⊢
  by_cases hscan : m.mode = .scan
  · rw [if_pos hscan]
    exact hw.done
  · rw [if_neg hscan]
    cases hv : x m with
    | error e => exact hw.failed (hx e hv)
    | ok v =>
      simp only [Machine.setVariable, Store.store, bind, Except.bind]
      by_cases hfull : 65535 < m.store.size
      · rw [if_pos hfull]
        exact hw.failed (.of .tooManyVariables rfl)
      · rw [if_neg hfull]
        exact ⟨rfl, rfl, rfl, hw.covers.inside, fun _ => Nat.le_refl _⟩

/-- A jump that is taken goes to a place in the stream. -/
theorem concludes_jump (address : Int64) : Concludes host A 0 (jump address) w := by
  obtain ⟨m, s⟩ := w
  unfold Concludes jump change
  dsimp only
  by_cases hoff : m.mode = .scan ∨ m.gotoLock = true
  · rw [if_pos hoff]
    exact hw.done
  · rw [if_neg hoff]
    by_cases hneg : address.toInt < 0
    · rw [if_pos hneg]
      exact hw.failed (.of (.negativeAddress _) rfl)
    · rw [if_neg hneg, Code.seek]
      by_cases hin : address.toInt.toNat < m.code.size
      · rw [if_pos hin]
        exact ⟨rfl, rfl, rfl, Nat.le_of_lt hin, fun h => absurd h hoff⟩
      · rw [if_neg hin]
        exact hw.failed (.of (.addressBeyond ..) rfl)

theorem concludes_assign {f : Value → Value → Except Error Value}
    (hf : ∀ u v, Value.OnlyMismatch (f u v)) : Concludes host A 0 (assign host f) w :=
  (reads_name hw).bind hw fun _ _ h₁ => (reads_expression h₁).bind h₁ fun _ _ h₂ =>
    concludes_setVariable h₂ fun _ => (hf _ _).bare

theorem concludes_update (f : Value → Value) :
    Concludes host A 0 (update f : Exec σ Unit) w :=
  (reads_name hw).bind hw fun name _ h₁ =>
    concludes_setVariable (x := fun m => .ok (f (m.store.fetch name))) h₁ fun _ h => by cases h

/-- One instruction, one case for each of its opcodes. -/
theorem concludes_instruction : Concludes host A 2 (instruction host) w := by
  have hopcode : Reads host A 2 (read Code.opcode) w :=
    reads_read_of hw (fun _ _ => Code.failsIn_opcode) fun _ _ _ _ => Code.add_two_le_of_opcode
  refine hopcode.bind hw fun opcode w₁ h₁ => ?_
  cases opcode with
  | stop => exact ⟨rfl, rfl, rfl, h₁.covers.inside, fun _ => Nat.le_refl _⟩
  | mov => exact (concludes_assign h₁ fun _ v => Value.onlyMismatch_ok v).result _
  | add => exact (concludes_assign h₁ (Value.onlyMismatch_combine .add)).result _
  | sub => exact (concludes_assign h₁ (Value.onlyMismatch_combine .sub)).result _
  | mul => exact (concludes_assign h₁ (Value.onlyMismatch_combine .mul)).result _
  | div => exact (concludes_assign h₁ (Value.onlyMismatch_combine .div)).result _
  | mod => exact (concludes_assign h₁ (Value.onlyMismatch_combine .mod)).result _
  | inc | dec => exact (concludes_update h₁ _).result _
  | cmp =>
    refine (reads_expression h₁).bind h₁ fun v w₂ h₂ => ?_
    refine (reads_number h₂).bind h₂ fun address w₃ h₃ => ?_
    dsimp only
    split
    · exact (concludes_jump h₃ address).result _
    · exact concludes_pure h₃ _
  | case =>
    refine (reads_expression h₁).bind h₁ fun v w₂ h₂ => ?_
    refine (reads_number h₂).bind h₂ fun address w₃ h₃ => concludes_get ?_
    dsimp only
    split
    · split
      · exact concludes_pure h₃ _
      · exact (concludes_jump h₃ address).result _
      · rename_i heq
        exact (concludes_throw h₃ ((Value.onlyMismatch_same _ _).bare heq)).result _
    · exact concludes_pure h₃ _
  | goto =>
    exact (reads_number h₁).bind h₁ fun address w₂ h₂ => (concludes_jump h₂ address).result _
  | func =>
    refine (reads_evaluate h₁ (Eval.ends_call h₁.host h₁.covers)).bind h₁ fun v w₂ h₂ => ?_
    exact concludes_pure h₂ _
  | push =>
    refine (reads_name h₁).bind h₁ fun name w₂ h₂ => concludes_get ?_
    refine (reads_onStack h₂ fun e stack he => ?_).bind h₂ fun _ w₃ h₃ => concludes_pure h₃ _
    rw [Stack.eq_of_push_eq_error he]
    exact .of _ rfl
  | pop =>
    refine (reads_name h₁).bind h₁ fun name w₂ h₂ => ?_
    refine (reads_onStack h₂ fun e stack he => ?_).bind h₂ fun v w₃ h₃ => ?_
    · rw [Stack.eq_of_pop_eq_error he]
      exact .of _ rfl
    · exact (concludes_setVariable (x := fun _ => .ok v) h₃ fun _ h => by cases h).result _

end

-- ============================================================================
-- Steps
-- ============================================================================

/-- A step of a running machine that goes well. -/
theorem done_of_step {more : Bool} (hw : Ready host A w) (hrun : w.1.running = true)
    (h : step host w = .ok more w') : Done 2 w w' := by
  have hi := concludes_instruction hw
  unfold Concludes at hi
  rw [step, if_pos hrun] at h
  cases hr : instruction host (w.1, w.2) with
  | ok more' v =>
    rw [hr] at h hi
    cases h
    exact hi
  | error e v =>
    rw [hr] at h
    cases h

/-- A step that fails: the error of its instruction gets the address of the instruction,
unless it has one, and goes to the host. -/
theorem failed_of_step (hw : Ready host A w) (h : step host w = .error e w') :
    ∃ e₀ v, Failed host A w e₀ v ∧ e = e₀.atAddress w.1.position ∧
      w' = ({ v.1 with running := false }, host.report e.render v.2) := by
  have hi := concludes_instruction hw
  unfold Concludes at hi
  rw [step] at h
  split at h
  · cases hr : instruction host (w.1, w.2) with
    | ok more v =>
      rw [hr] at h
      cases h
    | error e₀ v =>
      rw [hr] at h hi
      cases h
      exact ⟨e₀, v, hi, rfl, rfl⟩
  · cases h

/-- A machine that does not run executes nothing. -/
theorem step_idle (host : Host σ) (hidle : w.1.running = false) :
    step host w = .ok false w := by
  rw [step, if_neg (Bool.eq_false_iff.1 hidle)]

end Exec

namespace Machine

/-- The machine stands inside its stream and goes over it in this mode. -/
structure Inside (mode : Mode) (m : Machine) : Prop where
  inside : m.position ≤ m.code.size
  mode : m.mode = mode

variable {mode : Mode} {m : Machine}

/-- Nothing is asked of the errors of a host here. -/
theorem Inside.ready (h : m.Inside mode) (host : Host σ) (s : σ) :
    Exec.Ready host (fun _ => True) (m, s) :=
  ⟨⟨h.inside, fun _ _ _ => trivial⟩, host.errsAt_true _⟩

/-- However a step ends, the machine stays inside. -/
theorem Inside.step (h : m.Inside mode) (host : Host σ) (s : σ) :
    (Exec.finalState (Exec.step host (m, s))).1.Inside mode := by
  by_cases hrun : m.running = true
  · cases hr : Exec.step host (m, s) with
    | ok more w' =>
      have hdone := Exec.done_of_step (h.ready host s) hrun hr
      exact ⟨hdone.code ▸ hdone.inside, hdone.mode.trans h.mode⟩
    | error e w' =>
      obtain ⟨e₀, v, hfailed, rfl, rfl⟩ := Exec.failed_of_step (h.ready host s) hr
      exact ⟨hfailed.code ▸ hfailed.inside, hfailed.mode.trans h.mode⟩
  · rw [Exec.step_idle host (Bool.eq_false_iff.2 hrun)]
    exact h

theorem Inside.steps (h : m.Inside mode) (host : Host σ) (n : Nat) (s : σ) :
    (Exec.finalState (Exec.steps host n (m, s))).1.Inside mode := by
  induction n generalizing m s with
  | zero => exact h
  | succ n ih =>
    have hstep := h.step host s
    rw [Exec.steps_succ]
    cases hr : Exec.step host (m, s) with
    | ok more w' =>
      rw [hr] at hstep
      cases more with
      | true => exact ih hstep w'.2
      | false => exact hstep
    | error e w' =>
      rw [hr] at hstep
      exact hstep

end Machine

end ScriptMachine
