/-
  ScriptMachine.Proofs.Execution

  Executing decoded instructions.  `Expression.eval` values an expression tree and
  `Instruction.perform` carries out an instruction whose end is known; neither
  looks at the stream.  Where the stream holds the bytes of an instruction, the
  machine does exactly that (`Exec.instruction_of_holds`); a failed instruction
  may leave the machine at another place, and that is all the difference.
-/

import ScriptMachine.Machine.Run
import ScriptMachine.Proofs.Encoding

namespace ScriptMachine

variable {σ : Type}

/-! ## Values of trees -/

/-- Work on the variables and the host that may fail. -/
abbrev Work (σ : Type) := EStateM Error (Store × σ)

namespace Work

/-- A result or an error, without a change. -/
def ofExcept {α : Type} (x : Except Error α) : Work σ α := fun w =>
  match x with
  | .ok a => .ok a w
  | .error e => .error e w

/-- Value of a variable. -/
def fetch (name : String) : Work σ Value := fun w =>
  .ok (w.1.fetch name) w

/-- Passes a call to the host. -/
def invoke (host : Host σ) (mode : Mode) (code : UInt16) (args : List Value) : Work σ Value :=
  fun (store, s) =>
    match mode with
    | .run =>
      match host.call code args (store, s) with
      | .ok v w => .ok v w
      | .error e w => .error (Eval.callError e) w
    | .scan =>
      match host.check code args s with
      | .ok v s => .ok v (store, s)
      | .error e s => .error (Eval.callError e) (store, s)

end Work

section
variable (host : Host σ) (mode : Mode)

mutual

/-- Value of an operand. -/
def Operand.eval : Operand → Work σ Value
  | .str s => pure (.str s)
  | .num n => pure (.int n)
  | .var name => Work.fetch name
  | .call code args => do
    let vs ← args.eval
    Work.invoke host mode code vs

/-- Values of the arguments of a call. -/
def Args.eval : Args → Work σ (List Value)
  | .nil => pure []
  | .cons p e rest => do
    let (operands, operators) ← e.chain
    let v ← Work.ofExcept (Eval.settle mode operands operators)
    let v ← Work.ofExcept (Eval.argument p v)
    let vs ← rest.eval
    return v :: vs

/-- Values of the operands of an expression, and its operators. -/
def Expression.chain : Expression → Work σ (List Value × List Operator)
  | .last o => do
    let v ← o.eval
    return ([v], [])
  | .more o op rest => do
    let v ← o.eval
    let (operands, operators) ← rest.chain
    return (v :: operands, op :: operators)

end

/-- Value of an expression. -/
def Expression.eval (e : Expression) : Work σ Value := do
  let (operands, operators) ← e.chain host mode
  Work.ofExcept (Eval.settle mode operands operators)

end

theorem Args.eval_cons (host : Host σ) (mode : Mode) (p : Param) (e : Expression) (rest : Args) :
    Args.eval host mode (.cons p e rest) = (do
      let v ← e.eval host mode
      let v ← Work.ofExcept (Eval.argument p v)
      let vs ← rest.eval host mode
      return v :: vs) := by
  rw [Args.eval, Expression.eval, bind_assoc]

/-! ## Evaluation from the stream -/

namespace Eval

variable {α β γ δ : Type} {c : Code}

/-- The evaluation `x` at a position does the work `y` and ends at `q`; `mk` puts
the result and the end together.  When the work fails, the place of the failure is
left open. -/
def Does {p : Nat} (mk : α → c.Past p → γ) (x : Eval σ γ) (y : Work σ α) (q : Nat) : Prop :=
  ∀ w, match y w with
    | .ok a w' => ∃ h, x w = .ok (mk a ⟨q, h⟩) w'
    | .error e w' => ∃ r, x w = .error ⟨e, r⟩ w'

theorem Does.bind {p q r t : Nat} {mk : α → c.Past q → γ} {mk' : β → c.Past p → δ}
    {x : Eval σ γ} {y : Work σ α} {f : γ → Eval σ δ} {g : α → Work σ β} (h : Does mk x y r)
    (hf : ∀ a hr, Does mk' (f (mk a ⟨r, hr⟩)) (g a) t) : Does mk' (x >>= f) (y >>= g) t := by
  intro w
  have hx := h w
  simp only [Bind.bind, EStateM.bind]
  cases hy : y w with
  | ok a w' =>
    rw [hy] at hx
    obtain ⟨hr, hx⟩ := hx
    rw [hx]
    exact hf a hr w'
  | error e w' =>
    rw [hy] at hx
    obtain ⟨s, hx⟩ := hx
    rw [hx]
    exact ⟨s, rfl⟩

/-- A read in front of an evaluation. -/
theorem Does.read {p q r t : Nat} {mk : β → c.Past p → δ} {x : c.Read α q} {a : α}
    {f : α × c.Past q → Eval σ δ} {y : Work σ β} (h : Code.Reads x a r)
    (hf : ∀ hr, Does mk (f (a, ⟨r, hr⟩)) y t) : Does mk (ofRead x >>= f) y t := by
  obtain ⟨hr, rfl⟩ := h
  exact hf hr

/-- A result or an error in front of an evaluation. -/
theorem Does.ofExcept {p t position : Nat} {mk : β → c.Past p → δ} {x : Except Error α}
    {f : α → Eval σ δ} {g : α → Work σ β} (hf : ∀ a, Does mk (f a) (g a) t) :
    Does mk (Eval.ofExcept position x >>= f) (Work.ofExcept x >>= g) t := by
  intro w
  cases x with
  | ok a => exact hf a w
  | error e => exact ⟨position, rfl⟩

theorem Does.pure {p q : Nat} {mk : α → c.Past p → γ} {a : α} {r : c.Past p} (h : r.1 = q) :
    Does mk (Pure.pure (mk a r) : Eval σ γ) (Pure.pure a) q := by
  subst h
  exact fun w => ⟨r.2, rfl⟩

/-- An evaluation seen from an earlier place. -/
theorem Does.moved {p q r t : Nat} {x : Eval σ (α × c.Past q)} {y : Work σ α}
    {f : c.Past q → c.Past p} (h : Does Prod.mk x y r) (hf : ∀ hr, (f ⟨r, hr⟩).1 = t) :
    Does Prod.mk (x >>= fun u => Pure.pure (u.1, f u.2)) y t := by
  rw [← bind_pure y]
  exact Does.bind h fun a hr => .pure (hf hr)

/-- The last step of an evaluation: a result or an error. -/
theorem Does.settled {p q position : Nat} {x : Except Error α} {r : c.Past p} (h : r.1 = q) :
    Does Prod.mk (do
      let v ← Eval.ofExcept position x
      return (v, r) : Eval σ (α × c.Past p)) (Work.ofExcept x) q := by
  subst h
  intro w
  cases x with
  | ok a => exact ⟨r.2, rfl⟩
  | error e => exact ⟨position, rfl⟩

/-- The last step of an operand that is a variable. -/
theorem Does.fetched {p q : Nat} {name : String} {r : c.Past p} (h : r.1 = q) :
    Does Prod.mk (do
      return (← fetch name, r) : Eval σ (Value × c.Past p)) (Work.fetch name) q := by
  subst h
  exact fun w => ⟨r.2, rfl⟩

/-- The last step of a call: the host takes it over. -/
theorem Does.invoked (host : Host σ) (mode : Mode) (code : UInt16) (args : List Value)
    {p q position : Nat} {r : c.Past p} (h : r.1 = q) :
    Does Prod.mk (do
      let v ← invoke host mode code args position
      return (v, r) : Eval σ (Value × c.Past p)) (Work.invoke host mode code args) q := by
  subst h
  rintro ⟨store, s⟩
  simp only [Bind.bind, EStateM.bind, invoke, Work.invoke]
  cases mode with
  | run =>
    cases host.call code args (store, s) with
    | ok v w => exact ⟨r.2, rfl⟩
    | error e w => exact ⟨position, rfl⟩
  | scan =>
    cases host.check code args s with
    | ok v w => exact ⟨r.2, rfl⟩
    | error e w => exact ⟨position, rfl⟩

/-- The parts of a chain of operands, put together. -/
abbrev chained {p : Nat} (r : List Value × List Operator) (q : c.Past p) :
    List Value × List Operator × c.Past p :=
  (r.1, r.2, q)

section
variable (host : Host σ) (mode : Mode)

/-- An expression is its chain of operands, settled. -/
theorem does_expression {p q : Nat} {e : Expression}
    (h : Does chained (chain host mode c p) (e.chain host mode) q) :
    Does Prod.mk (expression host mode c p) (e.eval host mode) q := by
  rw [expression]
  exact Does.bind h fun r _ => .settled rfl

/-- A call is its arguments, passed to the host. -/
theorem does_call {p q : Nat} {code : UInt16} {as : Args}
    (hcode : Code.Reads (c.word p) code (p + 2))
    (h : Does Prod.mk (arguments host mode c (p + 2)) (as.eval host mode) q) :
    Does Prod.mk (call host mode c p) (Operand.eval host mode (.call code as)) q := by
  rw [call, Operand.eval]
  exact Does.read hcode fun _ => Does.bind h fun vs _ => .invoked host mode code vs rfl

mutual

theorem operand_of_holds {p : Nat} : ∀ {o : Operand}, o.Legible →
    c.Holds p (Item.stream o.items) →
    Does Prod.mk (operand host mode c p) (o.eval host mode) (p + (Item.stream o.items).length)
  | .str s, hl, h => by
    simp only [Operand.Legible] at hl
    simp only [Operand.items, Item.stream_cons, Item.stream_nil, List.append_nil] at h ⊢
    obtain ⟨htag, htext⟩ := Code.holds_cons_iff.1 h
    rw [operand, Operand.eval]
    refine Does.read (Code.tag_of_holds htag) fun _ =>
      Does.read (Code.text_of_holds hl htext) fun _ => .pure ?_
    simp only [Code.Past.trans, Item.bytes, List.length_cons]
    omega
  | .num n, _, h => by
    simp only [Operand.items, Item.stream_cons, Item.stream_nil, List.append_nil] at h ⊢
    obtain ⟨htag, hnumber⟩ := Code.holds_cons_iff.1 h
    rw [operand, Operand.eval]
    refine Does.read (Code.tag_of_holds htag) fun _ =>
      Does.read (Code.number_of_holds hnumber) fun _ => .pure ?_
    simp [Code.Past.trans, Item.bytes]
  | .var name, hl, h => by
    simp only [Operand.Legible] at hl
    simp only [Operand.items, Item.stream_cons, Item.stream_nil, List.append_nil] at h ⊢
    obtain ⟨htag, htext⟩ := Code.holds_cons_iff.1 h
    rw [operand, Operand.eval]
    refine Does.read (Code.tag_of_holds htag) fun _ =>
      Does.read (Code.text_of_holds hl htext) fun _ => .fetched ?_
    simp only [Code.Past.trans, Item.bytes, List.length_cons]
    omega
  | .call code args, hl, h => by
    rw [Operand.Legible] at hl
    simp only [Operand.items, Item.stream_cons] at h ⊢
    have hcode := h.append_right
    have hfunc := hcode.append_right
    have hargs := hfunc.append_right
    have hcall : Does Prod.mk (call host mode c (p + 1 + 2))
        (Operand.eval host mode (.call code args)) _ :=
      does_call host mode (Code.word_of_holds hfunc.append_left) (arguments_of_holds hl hargs)
    rw [operand]
    refine Does.read (Code.tag_of_holds (t := .call) h.append_left) fun _ =>
      Does.read (Code.opcode_of_holds hcode.append_left) fun hq => ?_
    simp only [if_true]
    refine Does.moved (f := fun u => Code.Past.trans _ (Code.Past.trans ⟨_, hq⟩ u))
      hcall fun _ => ?_
    have hmark : (Item.bytes .call).length = 1 := rfl
    have hopcode : (Item.bytes (.code .func)).length = 2 := rfl
    have hnumber : (Item.bytes (.func code)).length = 2 := by simp [Item.bytes]
    simp only [Code.Past.trans, List.length_append, hmark, hopcode, hnumber]
    omega

theorem arguments_of_holds {p : Nat} : ∀ {as : Args}, as.Legible →
    c.Holds p (Item.stream as.items) →
    Does Prod.mk (arguments host mode c p) (as.eval host mode) (p + (Item.stream as.items).length)
  | .nil, _, h => by
    rw [arguments, Args.eval]
    refine Does.read (Code.byte_of_holds (b := paramsEnd) h) fun _ => ?_
    simp only [if_true]
    exact .pure rfl
  | .cons param e rest, hl, h => by
    obtain ⟨hparam, he, hrest⟩ := hl
    simp only [Args.items, Item.stream_cons, Item.stream_append] at h ⊢
    have hexpr := h.append_right
    have hof : Param.ofByte? param.toByte = some param :=
      Param.ofByte?_eq_some_iff.2 ⟨rfl, hparam⟩
    have hne : param.toByte ≠ paramsEnd := by
      intro hb
      rw [hb, ofByte?_paramsEnd] at hof
      cases hof
    rw [arguments, Args.eval_cons]
    refine Does.read (Code.byte_of_holds (b := param.toByte) h.append_left) fun _ => ?_
    simp only [hne, if_false, hof]
    refine Does.bind (does_expression host mode (chain_of_holds he hexpr.append_left)) fun v _ =>
      .ofExcept fun v => Does.bind (arguments_of_holds hrest hexpr.append_right) fun vs _ =>
        .pure ?_
    have hbyte : (Item.bytes (.param param)).length = 1 := rfl
    simp only [Code.Past.trans, List.length_append, hbyte]
    omega

theorem chain_of_holds {p : Nat} : ∀ {e : Expression}, e.Legible →
    c.Holds p (Item.stream e.items) →
    Does chained (chain host mode c p) (e.chain host mode) (p + (Item.stream e.items).length)
  | .last o, hl, h => by
    rw [Expression.Legible] at hl
    simp only [Expression.items, Item.stream_append] at h ⊢
    rw [chain, Expression.chain]
    refine Does.bind (operand_of_holds hl h.append_left) fun v _ =>
      Does.read (Code.byte_of_holds (b := Operator.close.toByte) h.append_right) fun _ => ?_
    simp only [Operator.ofByte?_toByte]
    refine @Does.pure _ _ _ _ _ _ chained ([v], []) _ ?_
    rw [List.length_append]
    rfl
  | .more o op rest, hl, h => by
    obtain ⟨hop, ho, hrest⟩ := hl
    simp only [Expression.items, Item.stream_append, Item.stream_cons] at h ⊢
    have htail := h.append_right
    rw [chain, Expression.chain]
    refine Does.bind (operand_of_holds ho h.append_left) fun v _ =>
      Does.read (Code.byte_of_holds (b := op.toByte) htail.append_left) fun _ => ?_
    simp only [Operator.ofByte?_toByte]
    refine Does.bind (chain_of_holds hrest htail.append_right) fun r _ => ?_
    refine @Does.pure _ _ _ _ _ _ chained (v :: r.1, op :: r.2) _ ?_
    have hbyte : (Item.bytes (.operator op)).length = 1 := rfl
    simp only [Code.Past.trans, List.length_append, hbyte]
    omega

end

theorem expression_of_holds {p : Nat} {e : Expression} (hl : e.Legible)
    (h : c.Holds p (Item.stream e.items)) :
    Does Prod.mk (expression host mode c p) (e.eval host mode)
      (p + (Item.stream e.items).length) :=
  does_expression host mode (chain_of_holds host mode hl h)

end

end Eval

/-! ## Instructions -/

/-- What an assigning instruction stores, from the value of its variable and the
value of its expression. -/
def Assignment.combine : Assignment → Value → Value → Except Error Value
  | mov => fun _ v => .ok v
  | add => Value.sum
  | sub => Value.subtract
  | mul => Value.multiply
  | div => Value.divide
  | mod => Value.modulo

namespace Exec

variable {α β : Type}

/-- Goes to a position. -/
def advance (next : Nat) : Exec σ Unit :=
  change fun m => .ok { m with position := next }

/-- Does work on the variables and the host, and then goes to a position. -/
def work (next : Nat) (y : Mode → Work σ α) : Exec σ α := fun (m, s) =>
  match y m.mode (m.store, s) with
  | .ok v (store, s) => .ok v ({ m with position := next, store }, s)
  | .error e (store, s) => .error e ({ m with store }, s)

end Exec

open Exec in
/-- Carries out an instruction that ends at `next`; false when it is the last. -/
def Instruction.perform (host : Host σ) (next : Nat) : Instruction → Exec σ Bool
  | stop => do
    advance next
    change fun m => .ok { m with running := false }
    return false
  | assign how name e => do
    let v ← work next (e.eval host)
    effect fun m => do m.setVariable name (← how.combine (m.store.fetch name) v)
    return true
  | increment name => do
    advance next
    effect fun m => m.setVariable name (m.store.fetch name).increment
    return true
  | decrement name => do
    advance next
    effect fun m => m.setVariable name (m.store.fetch name).decrement
    return true
  | unlessGoto e dest => do
    let v ← work next (e.eval host)
    if !v.isTruthy then jump dest
    return true
  | unlessCaseGoto e dest => do
    let v ← work next (e.eval host)
    let (m, _) ← get
    if m.mode = .run then
      match Value.same v (m.store.fetch caseName) with
      | .ok true => pure ()
      | .ok false => jump dest
      | .error e => throw e
    return true
  | goto dest => do
    advance next
    jump dest
    return true
  | func code args => do
    let _ ← work next fun mode => Operand.eval host mode (.call code args)
    return true
  | push name => do
    advance next
    let v := (← get).1.store.fetch name
    onStack (Stack.push v) ()
    return true
  | pop name => do
    advance next
    let v ← onStack Stack.pop default
    effect fun m => m.setVariable name v
    return true

namespace Exec

variable {α β : Type}

/-! ## Instructions from the stream -/

/-- Two results are the same; a failure may leave the machine at another
position. -/
def Agrees (r r' : EStateM.Result Error (Machine × σ) α) : Prop :=
  match r' with
  | .ok a w => r = .ok a w
  | .error e w => ∃ q, r = .error e ({ w.1 with position := q }, w.2)

theorem Agrees.refl (r : EStateM.Result Error (Machine × σ) α) : Agrees r r := by
  cases r with
  | ok a w => rfl
  | error e w => exact ⟨w.1.position, rfl⟩

/-- A look at the state in front of a step. -/
theorem get_bind {w : Machine × σ} {g : Machine × σ → Exec σ β} : (get >>= g) w = g w w := rfl

/-- A read in front of a step. -/
theorem read_bind {f : (c : Code) → (position : Nat) → c.Read α position} {a : α} {q : Nat}
    {m : Machine} {s : σ} {g : α → Exec σ β} (h : Code.Reads (f m.code m.position) a q) :
    (read f >>= g) (m, s) = g a ({ m with position := q }, s) := by
  obtain ⟨hq, h⟩ := h
  simp only [Bind.bind, EStateM.bind, read, h]

/-- An evaluation in front of a step does its work. -/
theorem evaluate_bind {f : (mode : Mode) → (c : Code) → (position : Nat) →
      Eval σ (Value × c.Past position)} {y : Mode → Work σ Value} {p q next : Nat} {m : Machine}
    {s : σ} {g g' : Value → Exec σ β} (h : Eval.Does Prod.mk (f m.mode m.code p) (y m.mode) q)
    (hg : ∀ v store s', Agrees (g v ({ m with position := q, store }, s'))
      (g' v ({ m with position := next, store }, s'))) :
    Agrees ((evaluate f >>= g) ({ m with position := p }, s)) ((work next y >>= g') (m, s)) := by
  have hw := h (m.store, s)
  simp only [Bind.bind, EStateM.bind, evaluate, work]
  cases hy : y m.mode (m.store, s) with
  | ok v w =>
    rw [hy] at hw
    obtain ⟨hq, hw⟩ := hw
    rw [hw]
    exact hg v w.1 w.2
  | error e w =>
    rw [hy] at hw
    obtain ⟨r, hw⟩ := hw
    rw [hw]
    exact ⟨r, rfl⟩

section
variable {host : Host σ} {m : Machine} {s : σ}

/-- An assigning instruction behind its opcode. -/
theorem assign_of_holds {p : Nat} {how : Assignment} {name : String} {e : Expression}
    (hl : (Instruction.assign how name e).Legible)
    (h : m.code.Holds p (Item.stream (.var name :: e.items))) :
    Agrees ((do
        assign host how.combine
        return true : Exec σ Bool) ({ m with position := p }, s))
      (Instruction.perform host (p + (Item.stream (.var name :: e.items)).length)
        (.assign how name e) (m, s)) := by
  rw [Item.stream_cons] at h ⊢
  unfold assign
  rw [bind_assoc, read_bind (Code.taggedName_of_holds hl.1 h.append_left)]
  simp only [bind_assoc]
  rw [List.length_append, ← Nat.add_assoc]
  exact evaluate_bind (Eval.expression_of_holds host _ hl.2 h.append_right)
    fun v store s' => .refl _

/-- A step up or down behind its opcode. -/
theorem update_of_holds {p : Nat} {name : String} {f : Value → Value}
    (hl : Item.textFits name = true) (h : m.code.Holds p (Item.bytes (.var name))) :
    Agrees ((do
        update f
        return true : Exec σ Bool) ({ m with position := p }, s))
      ((do
        advance (p + (Item.stream [.var name]).length)
        effect fun m => m.setVariable name (f (m.store.fetch name))
        return true : Exec σ Bool) (m, s)) := by
  unfold update
  rw [bind_assoc, read_bind (Code.taggedName_of_holds hl h)]
  have hlen : (Item.stream [.var name]).length = (Item.bytes (.var name)).length := by simp
  rw [hlen]
  exact .refl _

/-- The machine carries out the instruction whose bytes it stands at. -/
theorem instruction_of_holds {i : Instruction} (hl : i.Legible)
    (h : m.code.Holds m.position i.bytes) :
    Agrees (instruction host (m, s)) (i.perform host (m.position + i.bytes.length) (m, s)) := by
  obtain ⟨rest, hbytes, hitems⟩ := i.bytes_eq
  rw [hbytes] at h ⊢
  have hcode : (Item.bytes (.code i.opcode)).length = 2 := rfl
  have hrest := h.append_right
  rw [hcode] at hrest
  unfold instruction
  rw [read_bind (Code.opcode_of_holds h.append_left), List.length_append, hcode, ← Nat.add_assoc]
  cases i with
  | stop =>
    obtain rfl : [] = rest := (List.cons.inj hitems).2
    exact .refl _
  | assign how name e =>
    obtain rfl : .var name :: e.items = rest := (List.cons.inj hitems).2
    cases how <;> exact assign_of_holds hl hrest
  | increment name | decrement name =>
    obtain rfl : [.var name] = rest := (List.cons.inj hitems).2
    exact update_of_holds hl (by simpa using hrest)
  | unlessGoto e dest | unlessCaseGoto e dest =>
    obtain rfl : e.items ++ [.num dest] = rest := (List.cons.inj hitems).2
    rw [Item.stream_append] at hrest ⊢
    rw [List.length_append, ← Nat.add_assoc]
    refine evaluate_bind (Eval.expression_of_holds host _ hl hrest.append_left) fun v store s' => ?_
    rw [read_bind (Code.taggedNumber_of_holds (by simpa using hrest.append_right))]
    exact .refl _
  | goto dest =>
    obtain rfl : [.num dest] = rest := (List.cons.inj hitems).2
    simp only [Instruction.opcode]
    rw [read_bind (Code.taggedNumber_of_holds (by simpa using hrest))]
    exact .refl _
  | func code args =>
    obtain rfl : .func code :: args.items = rest := (List.cons.inj hitems).2
    rw [Item.stream_cons] at hrest ⊢
    have hnumber : (Item.bytes (.func code)).length = 2 := by simp [Item.bytes]
    have hargs := hrest.append_right
    rw [hnumber] at hargs
    rw [List.length_append, ← Nat.add_assoc, hnumber]
    exact evaluate_bind (Eval.does_call host _ (Code.word_of_holds hrest.append_left)
      (Eval.arguments_of_holds host _ hl hargs)) fun v store s' => .refl _
  | push name | pop name =>
    obtain rfl : [.var name] = rest := (List.cons.inj hitems).2
    rw [Item.stream_cons, Item.stream_nil, List.append_nil] at hrest ⊢
    simp only [Instruction.opcode]
    rw [read_bind (Code.taggedName_of_holds hl hrest)]
    exact .refl _

end

end Exec

end ScriptMachine
