/-
  ScriptMachine.Proofs.SideBySide

  Two machines side by side.  They have the same stream and differ at most in their hosts,
  which answer alike, and in their memories, which in a run are the same too.  Whatever the
  stream holds, every step of the one machine goes as the step of the other
  (`Exec.sideBySide_steps`), and so does a whole scan (`Machine.sideBySide_scan`): in a run
  the memories stay the same, in a scan each stays as it was.
-/

import ScriptMachine.Machine.Run

namespace ScriptMachine

variable {σ σ' : Type}

-- ============================================================================
-- Two steps side by side
-- ============================================================================

section
variable {τ τ' ε α α' β β' : Type}

/-- Two results match: both steps ended well with results that `R` relates, or both
failed with the same error, and `W` relates the states. -/
inductive Matches (W : τ → τ' → Prop) (R : α → α' → Prop) :
    EStateM.Result ε τ α → EStateM.Result ε τ' α' → Prop where
  | ok {a : α} {a' : α'} {w : τ} {w' : τ'} (ha : R a a') (hw : W w w') :
      Matches W R (.ok a w) (.ok a' w')
  | error (e : ε) {w : τ} {w' : τ'} (hw : W w w') : Matches W R (.error e w) (.error e w')

theorem Matches.mono {W V : τ → τ' → Prop} {R : α → α' → Prop} {r : EStateM.Result ε τ α}
    {r' : EStateM.Result ε τ' α'} (h : Matches W R r r') (hW : ∀ w w', W w w' → V w w') :
    Matches V R r r' := by
  cases h with
  | ok ha hw => exact .ok ha (hW _ _ hw)
  | error e hw => exact .error e (hW _ _ hw)

/-- Begun in states that `W` relates, the two steps have results that match. -/
def SideBySide (W : τ → τ' → Prop) (R : α → α' → Prop) (x : EStateM ε τ α)
    (y : EStateM ε τ' α') : Prop :=
  ∀ w w', W w w' → Matches W R (x w) (y w')

namespace SideBySide

variable {W : τ → τ' → Prop} {R R' : α → α' → Prop} {Q : β → β' → Prop} {x : EStateM ε τ α}
  {y : EStateM ε τ' α'}

theorem bind {f : α → EStateM ε τ β} {g : α' → EStateM ε τ' β'} (h : SideBySide W R x y)
    (hf : ∀ a a', R a a' → SideBySide W Q (f a) (g a')) : SideBySide W Q (x >>= f) (y >>= g) := by
  intro w w' hw
  have hx := h w w' hw
  simp only [Bind.bind, EStateM.bind]
  generalize x w = r at hx ⊢
  generalize y w' = r' at hx ⊢
  cases hx with
  | ok ha hv => exact hf _ _ ha _ _ hv
  | error e hv => exact .error e hv

theorem pure {a : α} {a' : α'} (h : R a a') :
    SideBySide W R (Pure.pure a : EStateM ε τ α) (Pure.pure a') :=
  fun _ _ hw => .ok h hw

theorem throw (e : ε) :
    SideBySide W R (MonadExcept.throw e : EStateM ε τ α) (MonadExcept.throw e) :=
  fun _ _ hw => .error e hw

theorem mono (h : SideBySide W R x y) (hR : ∀ a a', R a a' → R' a a') : SideBySide W R' x y := by
  intro w w' hw
  have hx := h w w' hw
  generalize x w = r at hx ⊢
  generalize y w' = r' at hx ⊢
  cases hx with
  | ok ha hv => exact .ok (hR _ _ ha) hv
  | error e hv => exact .error e hv

end SideBySide

end

/-- What two relations say of the two parts of a state. -/
def Joint {ρ ρ' : Type} (S : ρ → ρ' → Prop) (U : σ → σ' → Prop) (w : ρ × σ) (w' : ρ' × σ') : Prop :=
  S w.1 w'.1 ∧ U w.2 w'.2

/-- In a run, `S` relates equals and nothing else. -/
def Mode.Shares {τ : Type} (mode : Mode) (S : τ → τ → Prop) : Prop :=
  mode = .run → ∀ w w', S w w' ↔ w = w'

theorem Mode.shares_eq {τ : Type} (mode : Mode) : mode.Shares (Eq : τ → τ → Prop) :=
  fun _ _ _ => Iff.rfl

theorem Mode.shares_of_scan {τ : Type} (S : τ → τ → Prop) : Mode.scan.Shares S := by
  rintro ⟨⟩

/-- In a run the two are the same; beside them there is the same in any mode. -/
def Mode.Agree {α β : Type} (mode : Mode) (r r' : α × β) : Prop :=
  (mode = .run → r.1 = r'.1) ∧ r.2 = r'.2

theorem Mode.Agree.of_eq {α β : Type} {mode : Mode} {r r' : α × β} (h : r = r') :
    mode.Agree r r' :=
  ⟨fun _ => congrArg Prod.fst h, congrArg Prod.snd h⟩

/-- Asked the same in this mode, the two hosts answer the same; `U` relates their states. -/
structure Host.Alike (mode : Mode) (U : σ → σ' → Prop) (host : Host σ) (host' : Host σ') :
    Prop where
  call : mode = .run → ∀ code args,
    SideBySide (Joint Eq U) Eq (host.call code args) (host'.call code args)
  check : mode = .scan → ∀ code args,
    SideBySide U Eq (host.check code args) (host'.check code args)
  report : ∀ text s s', U s s' → U (host.report text s) (host'.report text s')

-- ============================================================================
-- Expressions
-- ============================================================================

namespace Eval

variable {α : Type} {W : Store × σ → Store × σ' → Prop}

theorem sideBySide_ofRead (x : Except Failure α) :
    SideBySide W Eq (ofRead x : Eval σ α) (ofRead x : Eval σ' α) := by
  intro w w' hw
  cases x with
  | ok a => exact .ok rfl hw
  | error f => exact .error f hw

theorem sideBySide_ofExcept (position : Nat) (x : Except Error α) :
    SideBySide W Eq (ofExcept position x : Eval σ α) (ofExcept position x : Eval σ' α) := by
  intro w w' hw
  cases x with
  | ok a => exact .ok rfl hw
  | error e => exact .error _ hw

/-- Operands that agree in a run have one value in any mode. -/
theorem settle_congr {mode : Mode} {operands operands' : List Value}
    (h : mode = .run → operands = operands') (operators : List Operator) :
    settle mode operands operators = settle mode operands' operators := by
  cases mode with
  | run => rw [h rfl]
  | scan => rfl

section
variable {mode : Mode} {S : Store → Store → Prop} {U : σ → σ' → Prop} {host : Host σ}
  {host' : Host σ'}

theorem sideBySide_invoke (hhost : host.Alike mode U host') (hS : mode.Shares S) (code : UInt16)
    (args : List Value) (position : Nat) :
    SideBySide (Joint S U) Eq (invoke host mode code args position)
      (invoke host' mode code args position) := by
  rintro ⟨store, s⟩ ⟨store', s'⟩ ⟨hstore, hs⟩
  cases mode with
  | run =>
    have hcall := hhost.call rfl code args (store, s) (store', s') ⟨(hS rfl _ _).1 hstore, hs⟩
    simp only [invoke]
    generalize host.call code args (store, s) = r at hcall ⊢
    generalize host'.call code args (store', s') = r' at hcall ⊢
    cases hcall with
    | ok hv hw => exact .ok hv ⟨(hS rfl _ _).2 hw.1, hw.2⟩
    | error e hw => exact .error _ ⟨(hS rfl _ _).2 hw.1, hw.2⟩
  | scan =>
    have hcheck := hhost.check rfl code args s s' hs
    simp only [invoke]
    generalize host.check code args s = r at hcheck ⊢
    generalize host'.check code args s' = r' at hcheck ⊢
    cases hcheck with
    | ok hv hs => exact .ok hv ⟨hstore, hs⟩
    | error e hs => exact .error _ ⟨hstore, hs⟩

mutual

/-- In a scan the value of an expression is not that of its operands, so it does not depend
on the variables. -/
theorem sideBySide_expression (hhost : host.Alike mode U host') (hS : mode.Shares S) (c : Code)
    (p : Nat) :
    SideBySide (Joint S U) Eq (expression host mode c p) (expression host' mode c p) := by
  rw [expression, expression]
  refine (sideBySide_chain hhost hS c p).bind fun r r' hr => ?_
  obtain ⟨operands, operators, q⟩ := r
  obtain ⟨operands', operators', q'⟩ := r'
  obtain ⟨hoperands, hrest⟩ := hr
  cases hrest
  dsimp only
  rw [settle_congr hoperands]
  exact (sideBySide_ofExcept q.1 _).bind fun v v' hv => .pure (by rw [hv])
termination_by (c.size - p, 2)
decreasing_by exact Prod.Lex.right _ (by omega)

/-- In a scan the operands may have other values; their operators and their end are the
same. -/
theorem sideBySide_chain (hhost : host.Alike mode U host') (hS : mode.Shares S) (c : Code)
    (p : Nat) :
    SideBySide (Joint S U) mode.Agree (chain host mode c p) (chain host' mode c p) := by
  rw [chain, chain]
  refine (sideBySide_operand hhost hS c p).bind fun r r' hr => ?_
  obtain ⟨v, q⟩ := r
  obtain ⟨v', q'⟩ := r'
  obtain ⟨(hv : mode = .run → v = v'), hrest⟩ := hr
  cases hrest
  refine (sideBySide_ofRead _).bind fun b b' hb => ?_
  cases hb
  have hlt : c.size - b.2.1 < c.size - p := by
    have := q.2
    have := b.2.2
    omega
  dsimp only
  split
  · exact .throw _
  · exact .pure ⟨fun h => by rw [hv h], rfl⟩
  · refine (sideBySide_chain hhost hS c b.2.1).bind fun r r' hr => .pure ?_
    obtain ⟨operands, operators, t⟩ := r
    obtain ⟨operands', operators', t'⟩ := r'
    obtain ⟨(hoperands : mode = .run → operands = operands'), hrest⟩ := hr
    cases hrest
    exact ⟨fun h => by rw [hv h, hoperands h], rfl⟩
termination_by (c.size - p, 1)
decreasing_by
  · exact Prod.Lex.right _ (by omega)
  · exact Prod.Lex.left _ _ hlt

/-- In a scan a variable may have another value; where the operand ends is the same. -/
theorem sideBySide_operand (hhost : host.Alike mode U host') (hS : mode.Shares S) (c : Code)
    (p : Nat) :
    SideBySide (Joint S U) mode.Agree (operand host mode c p) (operand host' mode c p) := by
  rw [operand, operand]
  refine (sideBySide_ofRead _).bind fun tag tag' htag => ?_
  cases htag
  dsimp only
  split
  · exact (sideBySide_ofRead _).bind fun s s' hs => .pure (.of_eq (by rw [hs]))
  · exact (sideBySide_ofRead _).bind fun n n' hn => .pure (.of_eq (by rw [hn]))
  · refine (sideBySide_ofRead _).bind fun name name' hname => ?_
    cases hname
    have hfetch : SideBySide (Joint S U) (fun v v' => mode = .run → v = v')
        (fetch name.1 : Eval σ Value) (fetch name.1) := fun w w' hw =>
      .ok (fun h => by rw [(hS h _ _).1 hw.1]) hw
    exact hfetch.bind fun v v' hv => .pure ⟨hv, rfl⟩
  · refine (sideBySide_ofRead _).bind fun opcode opcode' hopcode => ?_
    cases hopcode
    have hlt : c.size - opcode.2.1 < c.size - p := by
      have := tag.2.2
      have := opcode.2.2
      omega
    split
    · exact (sideBySide_call hhost hS c opcode.2.1).bind fun v v' hv => .pure (.of_eq (by rw [hv]))
    · exact (sideBySide_ofRead _).mono fun v v' hv => .of_eq hv
  · exact (sideBySide_ofRead _).mono fun v v' hv => .of_eq hv
termination_by (c.size - p, 0)
decreasing_by exact Prod.Lex.left _ _ hlt

theorem sideBySide_call (hhost : host.Alike mode U host') (hS : mode.Shares S) (c : Code)
    (p : Nat) :
    SideBySide (Joint S U) Eq (call host mode c p) (call host' mode c p) := by
  rw [call, call]
  refine (sideBySide_ofRead _).bind fun code code' hcode => ?_
  cases hcode
  have hlt : c.size - code.2.1 < c.size - p := by
    have := code.2.2
    omega
  refine (sideBySide_arguments hhost hS c code.2.1).bind fun args args' hargs => ?_
  cases hargs
  exact (sideBySide_invoke hhost hS _ _ _).bind fun v v' hv => .pure (by rw [hv])
termination_by (c.size - p, 0)
decreasing_by exact Prod.Lex.left _ _ hlt

theorem sideBySide_arguments (hhost : host.Alike mode U host') (hS : mode.Shares S) (c : Code)
    (p : Nat) :
    SideBySide (Joint S U) Eq (arguments host mode c p) (arguments host' mode c p) := by
  rw [arguments, arguments]
  refine (sideBySide_ofRead _).bind fun b b' hb => ?_
  cases hb
  dsimp only
  split
  · exact .pure rfl
  · split
    · exact .throw _
    · have hlt : c.size - b.2.1 < c.size - p := by
        have := b.2.2
        omega
      refine (sideBySide_expression hhost hS c b.2.1).bind fun v v' hv => ?_
      cases hv
      have hlt' : c.size - v.2.1 < c.size - p := by
        have := b.2.2
        have := v.2.2
        omega
      refine (sideBySide_ofExcept _ _).bind fun u u' hu => ?_
      exact (sideBySide_arguments hhost hS c v.2.1).bind fun args args' hargs =>
        .pure (by rw [hu, hargs])
termination_by (c.size - p, 0)
decreasing_by
  · exact Prod.Lex.left _ _ hlt
  · exact Prod.Lex.left _ _ hlt'

end

end

end Eval

-- ============================================================================
-- Instructions
-- ============================================================================

/-- The machine with other variables and another stack. -/
def Machine.withMemory (m : Machine) (memory : Store × Stack Value) : Machine :=
  { m with store := memory.1, stack := memory.2 }

/-- The machines differ in their memories alone, and `P` relates these. -/
def Machine.Twins (P : Store × Stack Value → Store × Stack Value → Prop) (m m' : Machine) : Prop :=
  ∃ memory, P (m.store, m.stack) memory ∧ m' = m.withMemory memory

namespace Exec

variable {α : Type} {mode : Mode} {P : Store × Stack Value → Store × Stack Value → Prop}
  {U : σ → σ' → Prop}

/-- Machines in this mode with memories that `P` relates, and hosts in states that `U`
relates. -/
def Paired (mode : Mode) (P : Store × Stack Value → Store × Stack Value → Prop)
    (U : σ → σ' → Prop) (w : Machine × σ) (w' : Machine × σ') : Prop :=
  w.1.mode = mode ∧ w.1.Twins P w'.1 ∧ U w.2 w'.2

theorem Paired.modes {w : Machine × σ} {w' : Machine × σ'} (h : Paired mode P U w w') :
    w.1.mode = mode ∧ w'.1.mode = mode := by
  obtain ⟨hmode, ⟨memory, _, heq⟩, _⟩ := h
  rw [heq]
  exact ⟨hmode, hmode⟩

/-- In a run the machines are the same. -/
theorem Paired.eq_of_run {w : Machine × σ} {w' : Machine × σ'} (hP : Mode.run.Shares P)
    (h : Paired .run P U w w') : w'.1 = w.1 := by
  obtain ⟨_, ⟨memory, hmemory, heq⟩, _⟩ := h
  rw [heq, ← (hP rfl _ _).1 hmemory]
  rfl

theorem Paired.of_run {m : Machine} {s : σ} {s' : σ'} (hP : Mode.run.Shares P)
    (hmode : m.mode = .run) (hs : U s s') : Paired .run P U (m, s) (m, s') :=
  ⟨hmode, ⟨_, (hP rfl _ _).2 rfl, rfl⟩, hs⟩

theorem sideBySide_read (f : (c : Code) → (position : Nat) → c.Read α position) :
    SideBySide (Paired mode P U) Eq (read f : Exec σ α) (read f : Exec σ' α) := by
  rintro ⟨m, s⟩ ⟨_, s'⟩ ⟨hmode, ⟨memory, hmemory, rfl⟩, hs⟩
  simp only [read, Machine.withMemory]
  cases f m.code m.position with
  | ok r => exact .ok rfl ⟨hmode, ⟨memory, hmemory, rfl⟩, hs⟩
  | error e => exact .error _ ⟨hmode, ⟨memory, hmemory, rfl⟩, hs⟩

/-- A look at the state. -/
theorem sideBySide_get {β : Type} {f : Machine × σ → Exec σ β} {g : Machine × σ' → Exec σ' β}
    {R : β → β → Prop}
    (h : ∀ w w', Paired mode P U w w' → SideBySide (Paired mode P U) R (f w) (g w')) :
    SideBySide (Paired mode P U) R (get >>= f) (get >>= g) :=
  fun w w' hw => h w w' hw w w' hw

section
variable (hP : mode.Shares P)
include hP

/-- An evaluation sees the variables; the stack stays as it is. -/
theorem sideBySide_evaluate
    {f : (mode : Mode) → (c : Code) → (position : Nat) → Eval σ (Value × c.Past position)}
    {g : (mode : Mode) → (c : Code) → (position : Nat) → Eval σ' (Value × c.Past position)}
    (h : ∀ S, mode.Shares S → ∀ c p, SideBySide (Joint S U) Eq (f mode c p) (g mode c p)) :
    SideBySide (Paired mode P U) Eq (evaluate f) (evaluate g) := by
  rintro ⟨m, s⟩ ⟨_, s'⟩ ⟨hmode, ⟨⟨store', stack'⟩, hmemory, rfl⟩, hs⟩
  have hstores : mode.Shares fun store store' => P (store, m.stack) (store', stack') := by
    intro hrun store store'
    dsimp only
    rw [hP hrun, Prod.mk.injEq, and_iff_left (congrArg Prod.snd ((hP hrun _ _).1 hmemory))]
  have hfg := h _ hstores m.code m.position (m.store, s) (store', s') ⟨hmemory, hs⟩
  rw [← hmode] at hfg
  simp only [evaluate, Machine.withMemory]
  generalize f m.mode m.code m.position (m.store, s) = r at hfg ⊢
  generalize g m.mode m.code m.position (store', s') = r' at hfg ⊢
  cases hfg with
  | ok hr hw =>
    cases hr
    exact .ok rfl ⟨hmode, ⟨_, hw.1, rfl⟩, hw.2⟩
  | error e hw => exact .error _ ⟨hmode, ⟨_, hw.1, rfl⟩, hw.2⟩

/-- A change that does nothing in a scan. -/
theorem sideBySide_change {f g : Machine → Except Error Machine} (hfg : mode = .run → f = g)
    (hmode : ∀ m n, f m = .ok n → n.mode = m.mode)
    (hidle : ∀ m, m.mode = .scan → f m = .ok m ∧ g m = .ok m) :
    SideBySide (Paired mode P U) (fun _ _ => True) (change f : Exec σ Unit)
      (change g : Exec σ' Unit) := by
  intro w w' hw
  cases mode with
  | run =>
    obtain ⟨m, s⟩ := w
    obtain ⟨m', s'⟩ := w'
    obtain rfl : m' = m := hw.eq_of_run hP
    obtain rfl := hfg rfl
    unfold change
    dsimp only
    cases hf : f m' with
    | ok n => exact .ok trivial (.of_run hP ((hmode _ _ hf).trans hw.1) hw.2.2)
    | error e => exact .error e hw
  | scan =>
    obtain ⟨hscan, hscan'⟩ := hw.modes
    unfold change
    dsimp only
    rw [(hidle _ hscan).1, (hidle _ hscan').2]
    exact .ok trivial hw

theorem sideBySide_effect {f g : Machine → Except Error Machine} (hfg : mode = .run → f = g)
    (hmode : ∀ m n, f m = .ok n → n.mode = m.mode) :
    SideBySide (Paired mode P U) (fun _ _ => True) (effect f : Exec σ Unit)
      (effect g : Exec σ' Unit) := by
  refine sideBySide_change hP (fun h => by rw [hfg h]) (fun m n h => ?_)
    fun m hm => ⟨if_pos hm, if_pos hm⟩
  split at h
  · cases h
    rfl
  · exact hmode m n h

/-- Storing a variable. -/
theorem sideBySide_store (name : String) {f g : Machine → Except Error Value}
    (hfg : mode = .run → f = g) :
    SideBySide (Paired mode P U) (fun _ _ => True)
      (effect fun m => do m.setVariable name (← f m) : Exec σ Unit)
      (effect fun m => do m.setVariable name (← g m) : Exec σ' Unit) := by
  refine sideBySide_effect hP (fun h => by rw [hfg h]) fun m n h => ?_
  cases hv : f m with
  | error e =>
    rw [hv] at h
    cases h
  | ok v =>
    rw [hv] at h
    change (do return { m with store := ← m.store.store name v } : Except Error Machine) = _ at h
    cases hstore : m.store.store name v with
    | error e =>
      rw [hstore] at h
      cases h
    | ok store =>
      rw [hstore] at h
      cases h
      rfl

theorem sideBySide_jump (address : Int64) :
    SideBySide (Paired mode P U) (fun _ _ => True) (jump address : Exec σ Unit)
      (jump address : Exec σ' Unit) := by
  refine sideBySide_change hP (fun _ => rfl) (fun m n h => ?_)
    fun m hm => ⟨if_pos (.inl hm), if_pos (.inl hm)⟩
  split at h
  · cases h
    rfl
  · split at h
    · cases h
    · cases hseek : m.code.seek address.toInt.toNat with
      | error e =>
        rw [hseek] at h
        cases h
      | ok p =>
        rw [hseek] at h
        cases h
        rfl

/-- A step on the stack, which in a scan gives the same whatever the step is. -/
theorem sideBySide_onStack {x y : EStateM Error (Stack Value) α} (hxy : mode = .run → x = y)
    (skipped : α) :
    SideBySide (Paired mode P U) (fun a a' => mode = .run → a = a') (onStack x skipped : Exec σ α)
      (onStack y skipped : Exec σ' α) := by
  intro w w' hw
  cases mode with
  | run =>
    obtain ⟨m, s⟩ := w
    obtain ⟨m', s'⟩ := w'
    obtain rfl : m' = m := hw.eq_of_run hP
    obtain rfl := hxy rfl
    have hrun : m'.mode = .run := hw.1
    simp only [onStack, hrun, reduceCtorEq, if_false]
    cases x m'.stack with
    | ok a stack => exact .ok (fun _ => rfl) (.of_run hP rfl hw.2.2)
    | error e stack => exact .error e (.of_run hP rfl hw.2.2)
  | scan =>
    obtain ⟨hscan, hscan'⟩ := hw.modes
    simp only [onStack, hscan, hscan', if_true]
    exact .ok nofun hw

theorem sideBySide_update (f : Value → Value) :
    SideBySide (Paired mode P U) (fun _ _ => True) (update f : Exec σ Unit)
      (update f : Exec σ' Unit) := by
  refine (sideBySide_read _).bind fun name name' hname => ?_
  cases hname
  exact sideBySide_store hP name (f := fun m => .ok (f (m.store.fetch name))) fun _ => rfl

/-- The branch of a choice: only a run compares the value. -/
theorem sideBySide_case (v : Value) (address : Int64) :
    SideBySide (Paired mode P U) Eq
      (do
        let (m, _) ← get
        if m.mode = .run then
          match Value.same v (m.store.fetch caseName) with
          | .ok true => pure ()
          | .ok false => jump address
          | .error e => throw e
        return true : Exec σ Bool)
      (do
        let (m, _) ← get
        if m.mode = .run then
          match Value.same v (m.store.fetch caseName) with
          | .ok true => pure ()
          | .ok false => jump address
          | .error e => throw e
        return true : Exec σ' Bool) := by
  refine sideBySide_get fun w w' hw => ?_
  obtain ⟨m, s⟩ := w
  obtain ⟨m', s'⟩ := w'
  cases mode with
  | run =>
    obtain rfl : m' = m := hw.eq_of_run hP
    have hrun : m'.mode = .run := hw.1
    simp only [hrun, if_true]
    split
    · exact .pure rfl
    · exact (sideBySide_jump hP _).bind fun _ _ _ => .pure rfl
    · exact (SideBySide.throw (R := fun _ _ => True) _).bind fun _ _ _ => .pure rfl
  | scan =>
    obtain ⟨(hscan : m.mode = .scan), (hscan' : m'.mode = .scan)⟩ := hw.modes
    simp only [hscan, hscan', reduceCtorEq, if_false]
    exact .pure rfl

section
variable {host : Host σ} {host' : Host σ'} (hhost : host.Alike mode U host')
include hhost

theorem sideBySide_expression :
    SideBySide (Paired mode P U) Eq (evaluate (Eval.expression host))
      (evaluate (Eval.expression host')) :=
  sideBySide_evaluate hP fun _ hS c p => Eval.sideBySide_expression hhost hS c p

theorem sideBySide_assign (f : Value → Value → Except Error Value) :
    SideBySide (Paired mode P U) (fun _ _ => True) (assign host f) (assign host' f) := by
  refine (sideBySide_read _).bind fun name name' hname => ?_
  refine (sideBySide_expression hP hhost).bind fun v v' hv => ?_
  cases hname
  cases hv
  exact sideBySide_store hP _ fun _ => rfl

/-- One instruction, one case for each of its opcodes. -/
theorem sideBySide_instruction :
    SideBySide (Paired mode P U) Eq (instruction host) (instruction host') := by
  refine (sideBySide_read _).bind fun opcode opcode' hopcode => ?_
  cases hopcode
  cases opcode with
  | stop =>
    rintro ⟨m, s⟩ ⟨_, s'⟩ ⟨hmode, ⟨memory, hmemory, rfl⟩, hs⟩
    exact .ok rfl ⟨hmode, ⟨memory, hmemory, rfl⟩, hs⟩
  | mov | add | sub | mul | div | mod =>
    exact (sideBySide_assign hP hhost _).bind fun _ _ _ => .pure rfl
  | inc | dec => exact (sideBySide_update hP _).bind fun _ _ _ => .pure rfl
  | cmp =>
    refine (sideBySide_expression hP hhost).bind fun v v' hv =>
      (sideBySide_read _).bind fun address address' ha => ?_
    cases hv
    cases ha
    dsimp only
    split
    · exact (sideBySide_jump hP _).bind fun _ _ _ => .pure rfl
    · exact .pure rfl
  | case =>
    refine (sideBySide_expression hP hhost).bind fun v v' hv =>
      (sideBySide_read _).bind fun address address' ha => ?_
    cases hv
    cases ha
    exact sideBySide_case hP v address
  | goto =>
    refine (sideBySide_read _).bind fun address address' ha => ?_
    cases ha
    exact (sideBySide_jump hP _).bind fun _ _ _ => .pure rfl
  | func =>
    exact (sideBySide_evaluate hP fun _ hS c p => Eval.sideBySide_call hhost hS c p).bind
      fun _ _ _ => .pure rfl
  | push =>
    refine (sideBySide_read _).bind fun name name' hname => sideBySide_get fun w w' hw => ?_
    cases hname
    refine (sideBySide_onStack hP (fun hrun => ?_) ()).bind fun _ _ _ => .pure rfl
    cases hrun
    rw [hw.eq_of_run hP]
  | pop =>
    refine (sideBySide_read _).bind fun name name' hname => ?_
    cases hname
    exact (sideBySide_onStack hP (fun _ => rfl) _).bind fun v v' hv =>
      (sideBySide_store hP name (f := fun _ => .ok v) (g := fun _ => .ok v')
        fun hrun => by rw [hv hrun]).bind fun _ _ _ => .pure rfl

omit hP in
theorem sideBySide_halt (e : Error) :
    SideBySide (Paired mode P U) Eq (halt host e : Exec σ α) (halt host' e : Exec σ' α) := by
  rintro ⟨m, s⟩ ⟨_, s'⟩ ⟨hmode, ⟨memory, hmemory, rfl⟩, hs⟩
  exact .error e ⟨hmode, ⟨memory, hmemory, rfl⟩, hhost.report _ s s' hs⟩

theorem sideBySide_step :
    SideBySide (Paired mode P U) Eq (step host) (step host') := by
  rintro ⟨m, s⟩ ⟨_, s'⟩ ⟨hmode, ⟨memory, hmemory, rfl⟩, hs⟩
  have hi := sideBySide_instruction hP hhost (m, s) (m.withMemory memory, s')
    ⟨hmode, ⟨memory, hmemory, rfl⟩, hs⟩
  have hrunning : (m.withMemory memory).running = m.running := rfl
  unfold step
  dsimp only
  rw [hrunning]
  split
  · generalize instruction host (m, s) = r at hi ⊢
    generalize instruction host' (m.withMemory memory, s') = r' at hi ⊢
    cases hi with
    | ok ha hw => exact .ok ha hw
    | error e hw => exact sideBySide_halt hhost (e.atAddress m.position) _ _ hw
  · exact .ok rfl ⟨hmode, ⟨memory, hmemory, rfl⟩, hs⟩

/-- Any number of steps. -/
theorem sideBySide_steps (n : Nat) :
    SideBySide (Paired mode P U) Eq (steps host n) (steps host' n) := by
  induction n with
  | zero => exact .pure rfl
  | succ n ih =>
    refine (sideBySide_step hP hhost).bind fun more more' hmore => ?_
    cases hmore
    split
    · exact ih
    · exact .pure rfl

end

end

end Exec

-- ============================================================================
-- Scans
-- ============================================================================

/-- A scan of one stream with two hosts, on two machines with any memories. -/
theorem Machine.sideBySide_scan {P : Store × Stack Value → Store × Stack Value → Prop}
    {U : σ → σ' → Prop} {host : Host σ} {host' : Host σ'} (hhost : host.Alike .scan U host')
    (c : Code) (p : Nat) :
    SideBySide (Joint (Machine.Twins P) U) Eq (scan host c p) (scan host' c p) := by
  rintro ⟨m, s⟩ ⟨_, s'⟩ ⟨⟨memory, hmemory, rfl⟩, hs⟩
  simp only [scan, load, withMemory]
  cases c.seek p with
  | error e => exact .error e ⟨⟨memory, hmemory, rfl⟩, hs⟩
  | ok p =>
    let begun : Machine := { m with code := c, position := p, mode := .scan, running := true }
    have hsteps := Exec.sideBySide_steps (Mode.shares_of_scan P) hhost (c.size + 1) (begun, s)
      (begun.withMemory memory, s') ⟨rfl, ⟨memory, hmemory, rfl⟩, hs⟩
    simp only [begun, withMemory] at hsteps
    dsimp only
    generalize Exec.steps host (c.size + 1) _ = r at hsteps ⊢
    generalize Exec.steps host' (c.size + 1) _ = r' at hsteps ⊢
    cases hsteps with
    | @ok _ _ w w' _ hw =>
      obtain ⟨n, s⟩ := w
      obtain ⟨_, s'⟩ := w'
      obtain ⟨_, ⟨memory, hmemory, rfl⟩, hs⟩ := hw
      exact .ok rfl ⟨⟨memory, hmemory, rfl⟩, hs⟩
    | @error e w w' hw =>
      obtain ⟨n, s⟩ := w
      obtain ⟨_, s'⟩ := w'
      obtain ⟨_, ⟨memory, hmemory, rfl⟩, hs⟩ := hw
      exact .error e ⟨⟨memory, hmemory, rfl⟩, hs⟩

end ScriptMachine
