/-
  ScriptMachine.Proofs.Scanning

  The two readers of a stream.  A scan of the machine goes over an instruction
  while it evaluates it, `Code.instruction` decodes it to a tree; they come to the
  same place or fail with the same kind of error (`Exec.tracks_instruction`).
  Every stream begins with instructions other than `stop`, up to a `stop` or to a
  place where nothing can be decoded (`Code.walk_exists`), and the scan goes along
  exactly these (`Exec.steps_along`).  Hence a scan ends behind the first `stop`
  just when the stream up to there has a disassembly.
-/

import ScriptMachine.Proofs.Decoding
import ScriptMachine.Proofs.Running

namespace ScriptMachine

variable {σ : Type}

/-- The host takes every call in a scan. -/
def Host.Tolerant (host : Host σ) : Prop :=
  ∀ code args s, ∃ v s', host.check code args s = .ok v s'

theorem Host.mute_tolerant : Host.mute.Tolerant :=
  fun _ _ s => ⟨default, s, rfl⟩

-- ============================================================================
-- Expressions
-- ============================================================================

namespace Eval

variable {α α' β β' γ δ : Type} {c : Code}

/-- The evaluation goes as the read goes: it comes to the same place, or it fails
with the same kind of error.  `mk` puts a result and a place together. -/
def Tracks {p : Nat} (mk : β → c.Past p → γ) (r : c.Read α p) (x : Eval σ γ) : Prop :=
  match r with
  | .ok (_, q) => ∀ w, ∃ b w', x w = .ok (mk b q) w'
  | .error f => ∀ w, ∃ f' w', x w = .error f' w' ∧ f'.error.kind = f.error.kind

/-- A step that does not fail, in front of an evaluation. -/
theorem Tracks.after {p : Nat} {mk : δ → c.Past p → γ} {r : c.Read α p} {x : Eval σ β}
    {g : β → Eval σ γ} (hx : ∀ w, ∃ b w', x w = .ok b w' ∧ Tracks mk r (g b)) :
    Tracks mk r (x >>= g) := by
  cases r with
  | error f =>
    intro w
    obtain ⟨b, w', hb, hg⟩ := hx w
    simp only [Bind.bind, EStateM.bind, hb]
    exact hg w'
  | ok y =>
    intro w
    obtain ⟨b, w', hb, hg⟩ := hx w
    simp only [Bind.bind, EStateM.bind, hb]
    exact hg w'

theorem Tracks.bind {p q : Nat} {mk : β → c.Past q → γ} {mk' : β' → c.Past p → δ}
    {r : c.Read α q} {x : Eval σ γ} {f : α × c.Past q → c.Read α' p} {g : γ → Eval σ δ}
    (h : Tracks mk r x) (hf : ∀ a b t, Tracks mk' (f (a, t)) (g (mk b t))) :
    Tracks mk' (r >>= f) (x >>= g) := by
  cases r with
  | error e =>
    intro w
    obtain ⟨f', w', hx, hk⟩ := h w
    exact ⟨f', w', by simp only [Bind.bind, EStateM.bind, hx], hk⟩
  | ok y =>
    refine Tracks.after fun w => ?_
    obtain ⟨b, w', hx⟩ := h w
    exact ⟨_, w', hx, hf y.1 b y.2⟩

/-- The same read in front of both. -/
theorem Tracks.read {p q : Nat} {mk : δ → c.Past p → γ} {r : c.Read α q}
    {f : α × c.Past q → c.Read β p} {g : α × c.Past q → Eval σ γ}
    (hf : ∀ a t, Tracks mk (f (a, t)) (g (a, t))) : Tracks mk (r >>= f) (ofRead r >>= g) := by
  cases r with
  | error e => exact fun w => ⟨e, w, rfl, rfl⟩
  | ok y => exact hf y.1 y.2

theorem Tracks.pure {p : Nat} (mk : δ → c.Past p → γ) {a : α} (b : δ) {q : c.Past p} :
    Tracks mk (Pure.pure (a, q) : c.Read α p) (Pure.pure (mk b q) : Eval σ γ) :=
  fun w => ⟨b, w, rfl⟩

/-- Both fail. -/
theorem Tracks.fail {p : Nat} {mk : δ → c.Past p → γ} {f f' : Failure}
    (h : f'.error.kind = f.error.kind) :
    Tracks mk (.error f : c.Read α p) (throw f' : Eval σ γ) :=
  fun w => ⟨f', w, rfl, h⟩

/-- The value of every expression of a scan has each type that is asked for. -/
theorem argument_default (param : Param) : ∃ v, argument param default = .ok v := by
  cases param <;> exact ⟨_, rfl⟩

/-- The value that a scan takes for every expression. -/
abbrev unvalued {p : Nat} (_ : Unit) (q : c.Past p) : Value × c.Past p :=
  (default, q)

/-- An expression is its chain of operands; in a scan they are not looked at. -/
theorem tracks_expression {host : Host σ} {p : Nat}
    (h : Tracks chained (c.expression p) (chain host .scan c p)) :
    Tracks unvalued (c.expression p) (expression host .scan c p) := by
  rw [expression, ← bind_pure (c.expression p)]
  exact h.bind fun e r q => .after fun w => ⟨default, w, rfl, .pure unvalued ()⟩

theorem tracks_of_unvalued {p : Nat} {r : c.Read α p} {x : Eval σ (Value × c.Past p)}
    (h : Tracks unvalued r x) : Tracks Prod.mk r x := by
  cases r with
  | error f => exact h
  | ok y =>
    intro w
    obtain ⟨_, w', hx⟩ := h w
    exact ⟨default, w', hx⟩

/-- In a scan no call fails. -/
theorem invoke_scan {host : Host σ} (hhost : host.Tolerant) (code : UInt16) (args : List Value)
    (position : Nat) (w : Store × σ) :
    ∃ v w', invoke host .scan code args position w = .ok v w' := by
  obtain ⟨v, s', h⟩ := hhost code args w.2
  refine ⟨v, (w.1, s'), ?_⟩
  simp only [invoke, h]

/-- A call goes as its arguments go. -/
theorem tracks_call {host : Host σ} (hhost : host.Tolerant) {p : Nat} (f : UInt16 → Args → α)
    (h : ∀ q : c.Past p, Tracks Prod.mk (c.args q.1) (arguments host .scan c q.1)) :
    Tracks Prod.mk (do
        let (code, q) ← c.word p
        let (as, r) ← c.args q
        return (f code as, q.trans r) : c.Read α p)
      (call host .scan c p) := by
  rw [call]
  refine Tracks.read fun code q => (h q).bind fun as vs r => .after fun w => ?_
  obtain ⟨v, w', hv⟩ := invoke_scan hhost code vs r.1 w
  exact ⟨v, w', hv, .pure Prod.mk v⟩

mutual

theorem tracks_chain {host : Host σ} (hhost : host.Tolerant) (c : Code) (p : Nat) :
    Tracks chained (c.expression p) (chain host .scan c p) := by
  rw [Code.expression, chain]
  refine (tracks_operand hhost c p).bind fun o v q => Tracks.read fun b r => ?_
  have hlt : c.size - r.1 < c.size - p := by
    have := q.2
    have := r.2
    omega
  dsimp only
  cases Operator.ofByte? b with
  | none => exact .fail rfl
  | some op =>
    have hrest := (tracks_chain hhost c r.1).bind
      (f := fun x => Pure.pure (Expression.more o op x.1, q.trans (r.trans x.2)))
      (g := fun x => Pure.pure (v :: x.1, op :: x.2.1, q.trans (r.trans x.2.2)))
      fun e y t => Tracks.pure chained (v :: y.1, op :: y.2)
    -- the closing operator ends the chain, every other one continues it
    cases op with
    | close => exact .pure chained ([v], [])
    | _ => exact hrest
termination_by (c.size - p, 1)
decreasing_by
  · exact Prod.Lex.right _ (by omega)
  · exact Prod.Lex.left _ _ hlt

theorem tracks_operand {host : Host σ} (hhost : host.Tolerant) (c : Code) (p : Nat) :
    Tracks Prod.mk (c.operand p) (operand host .scan c p) := by
  rw [Code.operand, operand]
  refine Tracks.read fun tag q => ?_
  cases tag with
  | str => exact Tracks.read fun s r => .pure Prod.mk (Value.str s)
  | num => exact Tracks.read fun n r => .pure Prod.mk (Value.int n)
  | var =>
    exact Tracks.read fun name r => .after fun w => ⟨w.1.fetch name, w, rfl, .pure Prod.mk _⟩
  | code => exact .fail rfl
  | call =>
    refine Tracks.read fun opcode r => ?_
    have hlt : ∀ t : c.Past r.1, c.size - t.1 < c.size - p := by
      intro t
      have := q.2
      have := r.2
      have := t.2
      omega
    have hcall := (tracks_call hhost Operand.call fun t => tracks_args hhost c t.1).bind
      (f := fun x => Pure.pure (x.1, q.trans (r.trans x.2)))
      (g := fun x => Pure.pure (x.1, q.trans (r.trans x.2))) fun o v t => Tracks.pure Prod.mk v
    by_cases hfunc : opcode = .func
    · simp only [if_pos hfunc]
      simpa only [bind_assoc, pure_bind] using hcall
    · simp only [if_neg hfunc]
      exact .fail rfl
termination_by (c.size - p, 0)
decreasing_by exact Prod.Lex.left _ _ (hlt t)

theorem tracks_args {host : Host σ} (hhost : host.Tolerant) (c : Code) (p : Nat) :
    Tracks Prod.mk (c.args p) (arguments host .scan c p) := by
  rw [Code.args, arguments]
  refine Tracks.read fun b q => ?_
  by_cases hend : b = paramsEnd
  · simp only [if_pos hend]
    exact .pure Prod.mk []
  · simp only [if_neg hend]
    cases Param.ofByte? b with
    | none => exact .fail rfl
    | some param =>
      have hlt : c.size - q.1 < c.size - p := by
        have := q.2
        omega
      refine (tracks_expression (tracks_chain hhost c q.1)).bind fun e _ r => ?_
      have hlt' : c.size - r.1 < c.size - p := by
        have := q.2
        have := r.2
        omega
      obtain ⟨v, hv⟩ := argument_default param
      refine .after fun w => ⟨v, w, by rw [hv]; rfl, ?_⟩
      exact (tracks_args hhost c r.1).bind fun rest vs t => .pure Prod.mk (v :: vs)
termination_by (c.size - p, 0)
decreasing_by
  · exact Prod.Lex.left _ _ hlt
  · exact Prod.Lex.left _ _ hlt'

end

end Eval

-- ============================================================================
-- Instructions
-- ============================================================================

namespace Exec

variable {α : Type} {P : Nat → Prop} {m : Machine}

/-- From `m` on, the step goes as the reading of an instruction goes: it comes to the
end of the instruction and goes on behind it unless that is `stop`, or it fails with
the same kind of error. -/
def Tracks (r : Except Failure (Instruction × { q : Nat // P q })) (x : Exec σ Bool)
    (m : Machine) : Prop :=
  match r with
  | .ok (i, q) => ∀ s, ∃ store s', x (m, s) = .ok (i.opcode != .stop)
      ({ m with position := q.1, running := m.running && i.opcode != .stop, store }, s')
  | .error f => ∀ s, ∃ e w, x (m, s) = .error e w ∧ e.kind = f.error.kind

/-- The same read in front of both. -/
theorem Tracks.read {f : (c : Code) → (position : Nat) → c.Read α position}
    {k : α × m.code.Past m.position → Except Failure (Instruction × { q : Nat // P q })}
    {g : α → Exec σ Bool} (hk : ∀ a q, Tracks (k (a, q)) (g a) { m with position := q.1 }) :
    Tracks (f m.code m.position >>= k) (read f >>= g) m := by
  cases hf : f m.code m.position with
  | error e =>
    intro s
    refine ⟨e.error, ({ m with position := e.position }, s), ?_, rfl⟩
    simp only [Bind.bind, EStateM.bind, Exec.read, hf]
  | ok y =>
    have hx : ∀ s, (Exec.read f >>= g) (m, s) = g y.1 ({ m with position := y.2.1 }, s) := by
      intro s
      simp only [Bind.bind, EStateM.bind, Exec.read, hf]
    have hy := hk y.1 y.2
    unfold Tracks at hy ⊢
    simp only [hx]
    exact hy

/-- An evaluation that goes as a read goes, in front of both. -/
theorem Tracks.evaluate {r : m.code.Read α m.position}
    {f : (mode : Mode) → (c : Code) → (position : Nat) → Eval σ (Value × c.Past position)}
    {k : α × m.code.Past m.position → Except Failure (Instruction × { q : Nat // P q })}
    {g : Value → Exec σ Bool} (h : Eval.Tracks Prod.mk r (f m.mode m.code m.position))
    (hk : ∀ a q v store, Tracks (k (a, q)) (g v) { m with position := q.1, store }) :
    Tracks (r >>= k) (evaluate f >>= g) m := by
  cases r with
  | error e =>
    intro s
    obtain ⟨f', w', hf, hkind⟩ := h (m.store, s)
    refine ⟨f'.error, ({ m with position := f'.position, store := w'.1 }, w'.2), ?_, hkind⟩
    simp only [Bind.bind, EStateM.bind, Exec.evaluate, hf]
  | ok y =>
    have hx : ∀ s, ∃ v store s', (Exec.evaluate f >>= g) (m, s) =
        g v ({ m with position := y.2.1, store }, s') := by
      intro s
      obtain ⟨v, w', hf⟩ := h (m.store, s)
      refine ⟨v, w'.1, w'.2, ?_⟩
      simp only [Bind.bind, EStateM.bind, Exec.evaluate, hf]
    show Tracks (k y) _ m
    cases hky : k y with
    | error e =>
      intro s
      obtain ⟨v, store, s', heq⟩ := hx s
      have hy := hk y.1 y.2 v store
      rw [hky] at hy
      rw [heq]
      exact hy s'
    | ok z =>
      intro s
      obtain ⟨v, store, s', heq⟩ := hx s
      have hy := hk y.1 y.2 v store
      rw [hky] at hy
      rw [heq]
      exact hy s'

/-- The end of an instruction other than `stop`, whose effects a scan leaves out. -/
theorem Tracks.done {i : Instruction} {q : { q : Nat // P q }} {x : Exec σ Bool}
    (hi : i.opcode ≠ .stop) (hq : m.position = q.1) (hx : ∀ s, x (m, s) = .ok true (m, s)) :
    Tracks (Pure.pure (i, q)) x m := by
  intro s
  have hgo : (i.opcode != Opcode.stop) = true := by simpa using hi
  refine ⟨m.store, s, ?_⟩
  rw [hx, hgo, Bool.and_true, ← hq]

/-- A result whose place is only seen in another way. -/
theorem Tracks.moved {Q : Nat → Prop} {r : Except Failure (Instruction × { q : Nat // P q })}
    {x : Exec σ Bool} {f : { q : Nat // P q } → { q : Nat // Q q }} (h : Tracks r x m)
    (hf : ∀ q, (f q).1 = q.1) : Tracks (r >>= fun y => Pure.pure (y.1, f y.2)) x m := by
  cases r with
  | error e => exact h
  | ok y =>
    intro s
    obtain ⟨store, s', hx⟩ := h s
    exact ⟨store, s', by rw [hx, hf]⟩

section
variable (hm : m.mode = .scan)
include hm

theorem effect_scan (f : Machine → Except Error Machine) (s : σ) :
    effect f (m, s) = .ok () (m, s) := by
  simp only [effect, change, hm, if_true]

theorem jump_scan (address : Int64) (s : σ) : jump address (m, s) = .ok () (m, s) := by
  simp only [jump, change, hm, true_or, if_true]

theorem onStack_scan (x : EStateM Error (Stack Value) α) (skipped : α) (s : σ) :
    onStack x skipped (m, s) = .ok skipped (m, s) := by
  simp only [onStack, hm, if_true]

end

section
variable {host : Host σ} (hhost : host.Tolerant) (hm : m.mode = .scan)
include hhost hm

theorem tracks_evaluate {k : Expression × m.code.Past m.position →
      Except Failure (Instruction × { q : Nat // P q })} {g : Value → Exec σ Bool}
    (hk : ∀ e q v store, Tracks (k (e, q)) (g v) { m with position := q.1, store }) :
    Tracks (m.code.expression m.position >>= k) (evaluate (Eval.expression host) >>= g) m := by
  refine Tracks.evaluate ?_ hk
  rw [hm]
  exact Eval.tracks_of_unvalued (Eval.tracks_expression (Eval.tracks_chain hhost _ _))

theorem tracks_assign {how : Assignment} {f : Value → Value → Except Error Value} :
    Tracks (m.code.assignment how m.position) (do
      assign host f
      return true) m := by
  unfold Code.assignment assign
  simp only [bind_assoc]
  refine Tracks.read fun name p => ?_
  refine tracks_evaluate (m := { m with position := p.1 }) hhost hm fun e q v store =>
    .done ?_ rfl fun s => ?_
  · cases how <;> exact fun h => Opcode.noConfusion h
  · simp only [Bind.bind, EStateM.bind, effect_scan (m := { m with position := q.1, store }) hm]
    rfl

/-- In a scan the machine goes as the decoding of the instruction it stands at. -/
theorem tracks_instruction :
    Tracks (m.code.instruction m.position) (instruction host) m := by
  unfold Code.instruction instruction
  refine Tracks.read fun o p => ?_
  refine Tracks.moved (f := fun q => ⟨q.1, _⟩) ?_ fun q => rfl
  cases o <;> simp only [Code.operands]
  case stop => exact fun s => ⟨m.store, s, by simp [Instruction.opcode]; rfl⟩
  case mov | add | sub | mul | div | mod =>
    exact Tracks.moved (f := fun q => ⟨q.1, _⟩)
      (tracks_assign (m := { m with position := p.1 }) hhost hm) fun q => rfl
  case inc | dec =>
    rw [update, bind_assoc]
    refine Tracks.read (m := { m with position := p.1 }) fun name q =>
      .done (fun h => Opcode.noConfusion h) rfl fun s => ?_
    simp only [Bind.bind, EStateM.bind, effect_scan (m := { m with position := q.1 }) hm]
    rfl
  case cmp =>
    refine tracks_evaluate (m := { m with position := p.1 }) hhost hm fun e q v store => ?_
    refine Tracks.read (m := { m with position := q.1, store }) fun n r =>
      .done (fun h => Opcode.noConfusion h) rfl fun s => ?_
    split
    · simp only [Bind.bind, EStateM.bind, jump_scan (m := { m with position := r.1, store }) hm]
      rfl
    · rfl
  case case =>
    refine tracks_evaluate (m := { m with position := p.1 }) hhost hm fun e q v store => ?_
    refine Tracks.read (m := { m with position := q.1, store }) fun n r =>
      .done (fun h => Opcode.noConfusion h) rfl fun s => ?_
    simp only [get_bind, hm]
    rfl
  case goto =>
    refine Tracks.read (m := { m with position := p.1 }) fun n q =>
      .done (fun h => Opcode.noConfusion h) rfl fun s => ?_
    simp only [Bind.bind, EStateM.bind, jump_scan (m := { m with position := q.1 }) hm]
    rfl
  case func =>
    have hcall := Eval.tracks_call (c := m.code) (p := p.1) hhost Prod.mk fun q =>
      Eval.tracks_args hhost m.code q.1
    rw [← hm] at hcall
    have hstep := Tracks.evaluate (m := { m with position := p.1 })
      (k := fun y => Pure.pure (Instruction.func y.1.1 y.1.2, y.2)) (g := fun _ => Pure.pure true)
      hcall fun y q v store => .done (fun h => Opcode.noConfusion h) rfl fun s => rfl
    have hmoved := hstep.moved (Q := fun q => p.1 ≤ q ∧ q ≤ max p.1 m.code.size)
      (f := fun q => ⟨q.1, by have := q.2; dsimp only at this; omega⟩) fun q => rfl
    simpa only [bind_assoc, pure_bind] using hmoved
  case push =>
    refine Tracks.read (m := { m with position := p.1 }) fun name q =>
      .done (fun h => Opcode.noConfusion h) rfl fun s => ?_
    rw [get_bind]
    simp only [Bind.bind, EStateM.bind, onStack_scan (m := { m with position := q.1 }) hm]
    rfl
  case pop =>
    refine Tracks.read (m := { m with position := p.1 }) fun name q =>
      .done (fun h => Opcode.noConfusion h) rfl fun s => ?_
    simp only [Bind.bind, EStateM.bind, onStack_scan (m := { m with position := q.1 }) hm,
      effect_scan (m := { m with position := q.1 }) hm]
    rfl

end

end Exec

-- ============================================================================
-- Streams
-- ============================================================================

namespace Code

variable {c : Code}

/-- Instructions other than `stop` stand in the stream from `p` to `q`. -/
structure Walk (c : Code) (p : Nat) (is : List Instruction) (q : Nat) : Prop where
  legible : ∀ i ∈ is, i.Legible
  goesOn : ∀ i ∈ is, i ≠ .stop
  holds : c.Holds p (Instruction.stream is)
  finish : q = p + (Instruction.stream is).length

theorem walk_nil (c : Code) (p : Nat) : c.Walk p [] p :=
  ⟨by simp, by simp, holds_nil c p, rfl⟩

theorem Has.walk {p q r : Nat} {i : Instruction} {is : List Instruction} (h : c.Has p i q)
    (hi : i ≠ .stop) (hw : c.Walk q is r) : c.Walk p (i :: is) r := by
  obtain ⟨hl, hh, rfl⟩ := h
  obtain ⟨wl, ws, wh, rfl⟩ := hw
  refine ⟨by simpa using ⟨hl, wl⟩, by simpa using ⟨hi, ws⟩, holds_append_iff.2 ⟨hh, wh⟩, ?_⟩
  rw [Instruction.stream_cons, List.length_append, Nat.add_assoc]

theorem Walk.head {p r : Nat} {i : Instruction} {is : List Instruction}
    (h : c.Walk p (i :: is) r) :
    i ≠ .stop ∧ c.Has p i (p + i.bytes.length) ∧ c.Walk (p + i.bytes.length) is r := by
  obtain ⟨hl, hs, hh, rfl⟩ := h
  rw [Instruction.stream_cons] at hh
  refine ⟨hs i (by simp), ⟨hl i (by simp), hh.append_left, rfl⟩,
    fun j hj => hl j (by simp [hj]), fun j hj => hs j (by simp [hj]), hh.append_right, ?_⟩
  rw [Instruction.stream_cons, List.length_append, Nat.add_assoc]

/-- Every stream begins with instructions other than `stop`, up to a `stop` or to a
place where nothing can be decoded. -/
theorem walk_exists (c : Code) (p : Nat) (hp : p ≤ c.size) :
    ∃ is q, c.Walk p is q ∧ q ≤ c.size ∧
      ((∃ r, c.Has q .stop r) ∨ ∃ f, c.instruction q = .error f) := by
  cases hi : c.instruction p with
  | error f => exact ⟨[], p, walk_nil c p, hp, .inr ⟨f, hi⟩⟩
  | ok y =>
    obtain ⟨i, q, hq⟩ := y
    have hhas := has_of_instruction ⟨hq, hi⟩
    by_cases hstop : i = .stop
    · subst hstop
      exact ⟨[], p, walk_nil c p, hp, .inl ⟨q, hhas⟩⟩
    · obtain ⟨is, r, hwalk, hr, hend⟩ := walk_exists c q hq.2
      exact ⟨i :: is, r, hhas.walk hstop hwalk, hr, hend⟩
termination_by c.size - p
decreasing_by omega

/-- An instruction takes two bytes at least, so there are no more instructions than
bytes. -/
theorem Walk.length_le {p q : Nat} {is : List Instruction} (h : c.Walk p is q) (hp : p ≤ c.size) :
    p + is.length ≤ c.size := by
  induction is generalizing p with
  | nil => exact hp
  | cons i is ih =>
    obtain ⟨_, hhas, hwalk⟩ := h.head
    have htwo := i.two_le_length_bytes
    have hle := hhas.holds.le_size (List.ne_nil_of_length_pos (by omega))
    have := ih hwalk hle
    rw [List.length_cons]
    omega

/-- Where the walk ends before the end of the stream at something that can not be
decoded, the whole stream can not. -/
theorem Walk.instructionsFrom_error {p q : Nat} {is : List Instruction} {f : Failure}
    {done : List (Nat × Instruction)} (h : c.Walk p is q) (hf : c.instruction q = .error f)
    (hq : q < c.size) : c.instructionsFrom done p = .error f := by
  induction is generalizing p done with
  | nil =>
    obtain rfl : q = p := h.finish
    rw [instructionsFrom, if_neg (by simp [atEnd, hq]), hf]
    rfl
  | cons i is ih =>
    obtain ⟨_, hhas, hwalk⟩ := h.head
    have htwo := i.two_le_length_bytes
    have hend := hwalk.finish
    obtain ⟨_, hi⟩ := reads_instruction_iff.2 hhas
    rw [instructionsFrom, if_neg (by simp only [atEnd, decide_eq_true_eq]; omega), hi]
    exact ih hwalk

/-- Where the walk comes to the end of the stream, it is all of it. -/
theorem Walk.instructions_eq {is : List Instruction} (h : c.Walk 0 is c.size) :
    c.instructions = .ok (Instruction.located 0 is) := by
  obtain ⟨hl, _, hh, hsize⟩ := h
  have hbytes : c.toList = Instruction.stream is := by
    rw [Holds, List.drop_zero] at hh
    refine (hh.eq_of_length ?_).symm
    have hlen : c.toList.length = c.size := Array.length_toList
    omega
  exact instructions_of_toList hl hbytes

/-- At the end of the stream there is no instruction. -/
theorem instruction_atEnd {p : Nat} (h : c.size ≤ p) :
    c.instruction p = .error (c.endOfCode 1 p) := by
  simp only [instruction, opcode, expect, byte_of_size_le h, bind, Except.bind]

theorem disassembly_of_instructions {l : List (Nat × Instruction)} (h : c.instructions = .ok l) :
    ∃ text, c.disassembly = .ok text := by
  rw [disassembly, h]
  exact ⟨_, rfl⟩

/-- The stream has a disassembly with one `stop`, at its end. -/
def EndsOnce (c : Code) : Prop :=
  ∃ text before a, c.disassembly = .ok text ∧ c.instructions = .ok (before ++ [(a, .stop)]) ∧
    ∀ x ∈ before, x.2 ≠ .stop

/-- The first `p` bytes of a stream. -/
def upTo (c : Code) (p : Nat) : Code :=
  c.extract 0 p

theorem toList_upTo_eq_iff {p : Nat} {bs : List UInt8} (hp : p ≤ c.size) :
    (c.upTo p).toList = bs ↔ c.Holds 0 bs ∧ p = bs.length := by
  have hsize : c.toList.length = c.size := Array.length_toList
  rw [upTo, Array.toList_extract, List.extract_eq_take_drop, Holds, List.drop_zero, Nat.sub_zero,
    List.prefix_iff_eq_take]
  constructor
  · rintro rfl
    have hlen : (c.toList.take p).length = p := by
      rw [List.length_take]
      omega
    exact ⟨by rw [hlen], hlen.symm⟩
  · rintro ⟨h, rfl⟩
    exact h.symm

/-- The first `p` bytes end at their only `stop` just when the walk from the start
comes to a `stop` there. -/
theorem endsOnce_upTo_iff {p : Nat} (hp : p ≤ c.size) :
    (c.upTo p).EndsOnce ↔ ∃ is q, c.Walk 0 is q ∧ c.Has q .stop p := by
  constructor
  · rintro ⟨_, before, a, _, hread, hbefore⟩
    obtain ⟨is, hl, hbytes, hlocated⟩ := instructions_eq_ok_iff.1 hread
    obtain ⟨hholds, hlen⟩ := (toList_upTo_eq_iff hp).1 hbytes
    have his : is = before.map Prod.snd ++ [.stop] := by
      rw [← Instruction.map_snd_located 0 is, ← hlocated]
      simp
    subst his
    rw [Instruction.stream_append] at hholds hlen
    rw [List.length_append] at hlen
    refine ⟨before.map Prod.snd, _, ⟨?_, ?_, hholds.append_left, rfl⟩, trivial, ?_, ?_⟩
    · exact fun i hi => hl i (List.mem_append_left _ hi)
    · intro i hi
      obtain ⟨x, hx, rfl⟩ := List.mem_map.1 hi
      exact hbefore x hx
    · simpa using hholds.append_right
    · simpa using hlen
  · rintro ⟨is, q, ⟨hl, hs, hh, hq⟩, hstop⟩
    have hall : ∀ i ∈ is ++ [.stop], i.Legible := by
      intro i hi
      rcases List.mem_append.1 hi with hi | hi
      · exact hl i hi
      · rw [List.mem_singleton.1 hi]
        trivial
    have hbytes : (c.upTo p).toList = Instruction.stream (is ++ [.stop]) := by
      refine (toList_upTo_eq_iff hp).2 ⟨?_, ?_⟩
      · rw [Instruction.stream_append]
        refine holds_append_iff.2 ⟨hh, ?_⟩
        rw [← hq]
        simpa using hstop.holds
      · rw [hstop.next, hq, Instruction.stream_append, List.length_append]
        simp
    have hread := instructions_of_toList hall hbytes
    rw [Instruction.located_append] at hread
    obtain ⟨text, htext⟩ := disassembly_of_instructions hread
    exact ⟨text, _, _, htext, hread, fun x hx => hs x.2 (Instruction.mem_of_mem_located hx)⟩

end Code

-- ============================================================================
-- Scans
-- ============================================================================

theorem Instruction.opcode_ne_stop (i : Instruction) (hi : i ≠ .stop) :
    (i.opcode != Opcode.stop) = true := by
  cases i with
  | stop => exact absurd rfl hi
  | assign how name e => cases how <;> rfl
  | _ => rfl

namespace Exec

section
variable {host : Host σ} (hhost : host.Tolerant) {m : Machine} (hm : m.mode = .scan)
  (hr : m.running = true)
include hhost hm hr

/-- One step of a scan over an instruction. -/
theorem step_over {i : Instruction} {q : Nat} (h : m.code.Has m.position i q) (s : σ) :
    ∃ store s', step host (m, s) = .ok (i.opcode != .stop)
      ({ m with position := q, running := i.opcode != .stop, store }, s') := by
  have htrack := tracks_instruction hhost hm
  obtain ⟨_, hi⟩ := Code.reads_instruction_iff.2 h
  rw [hi] at htrack
  obtain ⟨store, s', hx⟩ := htrack s
  refine ⟨store, s', ?_⟩
  rw [step, if_pos hr]
  simp only [hx, hr, Bool.true_and]

/-- One step of a scan at a place where nothing can be decoded. -/
theorem step_into {f : Failure} (h : m.code.instruction m.position = .error f) (s : σ) :
    ∃ e w, step host (m, s) = .error e w ∧ e.kind = f.error.kind := by
  have htrack := tracks_instruction hhost hm
  rw [h] at htrack
  obtain ⟨e, w, hx, hk⟩ := htrack s
  have hstep : step host (m, s) = halt host (e.atAddress m.position) w := by
    rw [step, if_pos hr]
    simp only [hx]
  exact ⟨_, _, hstep, hk⟩

end

/-- A scan goes along the instructions of a walk. -/
theorem steps_along {host : Host σ} (hhost : host.Tolerant) {is : List Instruction} {q : Nat}
    {m : Machine} (hm : m.mode = .scan) (hr : m.running = true)
    (h : m.code.Walk m.position is q) (n : Nat) (s : σ) :
    ∃ store s', steps host (is.length + n) (m, s) =
      steps host n ({ m with position := q, store }, s') := by
  induction is generalizing m s with
  | nil =>
    obtain rfl : q = m.position := h.finish
    exact ⟨m.store, s, by rw [List.length_nil, Nat.zero_add]⟩
  | cons i is ih =>
    obtain ⟨hi, hhas, hwalk⟩ := h.head
    obtain ⟨store, s', hstep⟩ := step_over hhost hm hr hhas s
    rw [i.opcode_ne_stop hi] at hstep
    obtain ⟨store', s'', hsteps⟩ := ih (m := { m with position := _, running := true, store })
      hm rfl hwalk s'
    refine ⟨store', s'', ?_⟩
    rw [List.length_cons, Nat.succ_add, steps_succ, hstep]
    simp only [hsteps, hr]

end Exec

namespace Machine

section
variable {host : Host σ} (hhost : host.Tolerant) {c : Code} (hc : 0 < c.size)
  {is : List Instruction} {q : Nat} (hw : c.Walk 0 is q) (m : Machine) (s : σ)
include hhost hc hw

/-- A scan from the start goes along the first walk, and at least one step is left for
what comes behind it. -/
theorem scan_along : ∃ n m' s', m'.code = c ∧ m'.position = q ∧ m'.mode = .scan ∧
    m'.running = true ∧ scan host c 0 (m, s) =
      match Exec.steps host (n + 1) (m', s') with
      | .ok _ (m, s) => .ok () ({ m with mode := .run, running := false }, s)
      | .error e (m, s) => .error e ({ m with mode := .run, running := false }, s) := by
  have hlen := hw.length_le (Nat.zero_le _)
  obtain ⟨n, hn⟩ : ∃ n, c.size + 1 = is.length + (n + 1) := ⟨c.size - is.length, by omega⟩
  obtain ⟨store, s', hsteps⟩ := Exec.steps_along hhost
    (m := { m with code := c, position := 0, mode := .scan, running := true }) rfl rfl hw (n + 1) s
  refine ⟨n, { m with code := c, position := q, mode := .scan, running := true, store }, s',
    rfl, rfl, rfl, rfl, ?_⟩
  cases hend : Exec.steps host (n + 1) (_, s') with
  | ok | error => simp only [scan, load, Code.seek, if_pos hc, hn, hsteps, hend]

theorem scan_stops {r : Nat} (hstop : c.Has q .stop r) :
    ∃ m' s', scan host c 0 (m, s) = .ok () (m', s') ∧ m'.position = r := by
  obtain ⟨n, m', s', rfl, rfl, hmode, hrun, hscan⟩ := scan_along hhost hc hw m s
  obtain ⟨store, s'', hstep⟩ := Exec.step_over hhost hmode hrun hstop s'
  have hsteps : Exec.steps host (n + 1) (m', s') = _ := Exec.steps_succ n (m', s')
  rw [hstep] at hsteps
  rw [hscan, hsteps]
  exact ⟨_, _, rfl, rfl⟩

theorem scan_fails {f : Failure} (hf : c.instruction q = .error f) :
    ∃ e w, scan host c 0 (m, s) = .error e w ∧ e.kind = f.error.kind := by
  obtain ⟨n, m', s', rfl, rfl, hmode, hrun, hscan⟩ := scan_along hhost hc hw m s
  obtain ⟨e, w, hstep, hk⟩ := Exec.step_into hhost hmode hrun hf s'
  have hsteps : Exec.steps host (n + 1) (m', s') = _ := Exec.steps_succ n (m', s')
  rw [hstep] at hsteps
  rw [hscan, hsteps]
  exact ⟨_, _, rfl, hk⟩

end

/-- The scan and the disassembler agree.  A scan from the start of a stream ends well
at `p` just when the first `p` bytes have a disassembly whose only `stop` is the last
instruction.  Where it fails, the disassembly of the whole stream fails with the same
kind of error, unless that has no `stop` and the scan ran over the end. -/
theorem scan_agrees_with_disassembly {host : Host σ} (hhost : host.Tolerant) {c : Code}
    (hc : c ≠ #[]) (m : Machine) (s : σ) :
    (∀ p, (∃ m' s', scan host c 0 (m, s) = .ok () (m', s') ∧ m'.position = p) ↔
      p ≤ c.size ∧ (c.upTo p).EndsOnce) ∧
    (∀ e w, scan host c 0 (m, s) = .error e w →
      (∃ e', c.disassembly = .error e' ∧ e'.kind = e.kind) ∨
      (∃ text l, c.disassembly = .ok text ∧ c.instructions = .ok l ∧ (∀ x ∈ l, x.2 ≠ .stop) ∧
        e.kind = .unexpectedEnd)) := by
  have hpos : 0 < c.size := Array.size_pos_iff.2 hc
  obtain ⟨is, q, hw, hq, hend⟩ := c.walk_exists 0 (Nat.zero_le _)
  refine ⟨fun p => ⟨?_, ?_⟩, ?_⟩
  · rintro ⟨m', s', hscan, rfl⟩
    rcases hend with ⟨r, hstop⟩ | ⟨f, hf⟩
    · obtain ⟨m'', s'', hscan', rfl⟩ := scan_stops hhost hpos hw m s hstop
      rw [hscan] at hscan'
      cases hscan'
      have hle : m'.position ≤ c.size := hstop.next ▸ hstop.holds.le_size (by decide)
      exact ⟨hle, (Code.endsOnce_upTo_iff hle).2 ⟨is, q, hw, hstop⟩⟩
    · obtain ⟨e, w, hscan', _⟩ := scan_fails hhost hpos hw m s hf
      rw [hscan] at hscan'
      cases hscan'
  · rintro ⟨hp, honce⟩
    obtain ⟨js, r, hwalk, hstop⟩ := (Code.endsOnce_upTo_iff hp).1 honce
    exact scan_stops hhost hpos hwalk m s hstop
  · intro e w hscan
    rcases hend with ⟨r, hstop⟩ | ⟨f, hf⟩
    · obtain ⟨m'', s'', hscan', _⟩ := scan_stops hhost hpos hw m s hstop
      rw [hscan] at hscan'
      cases hscan'
    · obtain ⟨e', w', hscan', hk⟩ := scan_fails hhost hpos hw m s hf
      rw [hscan] at hscan'
      cases hscan'
      by_cases hlt : q < c.size
      · have hread : c.instructions = .error f := hw.instructionsFrom_error hf hlt
        refine .inl ⟨f.error, ?_, hk.symm⟩
        rw [Code.disassembly, hread]
      · -- the walk has come to the end of the stream
        obtain rfl : q = c.size := by omega
        have hread := hw.instructions_eq
        obtain ⟨text, htext⟩ := Code.disassembly_of_instructions hread
        rw [Code.instruction_atEnd (Nat.le_refl _)] at hf
        cases hf
        exact .inr ⟨text, _, htext, hread,
          fun x hx => hw.goesOn x.2 (Instruction.mem_of_mem_located hx), hk⟩

/-- A stream that goes on behind its first `stop` with a byte that is no instruction. -/
def trailing : Code :=
  (Instruction.stream [.goto 0, .stop] ++ [255]).toArray

theorem trailing_scanned :
    Host.mute.Tolerant ∧ trailing ≠ #[] ∧
    ∃ m' s', scan Host.mute trailing 0 ({}, ()) = .ok () (m', s') ∧ m'.position = 13 := by
  have hne : trailing ≠ #[] := by decide
  have hbytes : (trailing.upTo 13).toList = Instruction.stream [.goto 0, .stop] := by decide
  have hread := Code.instructions_of_toList (by simp [Instruction.Legible]) hbytes
  obtain ⟨text, htext⟩ := Code.disassembly_of_instructions hread
  have honce : (trailing.upTo 13).EndsOnce :=
    ⟨text, [(0, .goto 0)], 11, htext, hread, by simp⟩
  have hscan := (scan_agrees_with_disassembly Host.mute_tolerant hne {} ()).1 13
  exact ⟨Host.mute_tolerant, hne, hscan.2 ⟨by decide, honce⟩⟩

end Machine

end ScriptMachine
