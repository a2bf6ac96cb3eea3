/-
  ScriptMachine.Proofs.Conformance

  Calls conform to declarations.  A shape says which values a function is passed
  (`Param.Walk`).  The compiler writes only calls of declared functions, with one
  argument for each place of the shape (`Args.Fits`); the machine gives each argument
  the kind that its place asks for (`Args.Fits.walk`).  So whatever is compiled, every
  call that a host receives, in a run or in a scan, walks a declared shape
  (`Compile.calls_conform`).
-/

import ScriptMachine.Proofs.Recording
import ScriptMachine.Proofs.Safety
import ScriptMachine.Proofs.WellFormed

namespace ScriptMachine

variable {σ : Type}

-- ============================================================================
-- Values of a shape
-- ============================================================================

/-- The values that a shape gives, from left to right, where `null` is what the null
variable is read as. -/
inductive Param.Walk (null : Value) : List Param → List Value → Prop where
  | done : Walk null [] []
  | stop (rest : List Param) : Walk null (.stop :: rest) []
  | skip {rest : List Param} {vs : List Value} (h : Walk null rest vs) :
      Walk null (.skip :: rest) vs
  | str {rest : List Param} {vs : List Value} (s : String) (h : Walk null rest vs) :
      Walk null (.str :: rest) (.str s :: vs)
  | num {rest : List Param} {vs : List Value} (n : Int64) (h : Walk null rest vs) :
      Walk null (.num :: rest) (.int n :: vs)
  | float {rest : List Param} {vs : List Value} (x : Float32) (h : Walk null rest vs) :
      Walk null (.float :: rest) (.single x :: vs)
  | optional (rest : List Param) (vs : List Value) : Walk null (.optional :: rest) (vs ++ [null])

/-- A shape of a script has no parameter that is passed as it is valued. -/
theorem Param.value_not_mem_of_shape {cs : List Char} {params : List Param}
    (h : Param.shape cs = .ok params) : Param.value ∉ params := by
  induction cs generalizing params with
  | nil =>
    cases h
    exact List.not_mem_nil
  | cons c cs ih =>
    unfold Param.shape at h
    rw [List.mapM_cons] at h
    obtain ⟨p, hp, hrest⟩ := except_bind_eq_ok h
    obtain ⟨ps, hps, hcons⟩ := except_bind_eq_ok hrest
    cases hcons
    have hne : p ≠ .value := by
      rintro rfl
      unfold Param.ofLetter? at hp
      split at hp
      · rename_i heq
        split at heq <;> cases heq <;> cases hp
      · cases hp
    rw [List.mem_cons, not_or]
    exact ⟨fun heq => hne heq.symm, ih hps⟩

theorem Work.of_ofExcept_eq_ok {α : Type} {x : Except Error α} {w w' : Store × σ} {a : α}
    (h : (ofExcept x : Work σ α) w = .ok a w') : x = .ok a ∧ w' = w := by
  cases x with
  | ok b =>
    cases h
    exact ⟨rfl, rfl⟩
  | error e => cases h

/-- The first argument has the type that its parameter asks for; the others follow. -/
theorem Args.of_eval_cons {host : Host σ} {mode : Mode} {p : Param} {e : Expression} {rest : Args}
    {w w' : Store × σ} {vs : List Value} (h : (Args.cons p e rest).eval host mode w = .ok vs w') :
    ∃ u v us w₁, e.eval host mode w = .ok u w₁ ∧ Eval.argument p u = .ok v ∧
      rest.eval host mode w₁ = .ok us w' ∧ vs = v :: us := by
  rw [Args.eval_cons] at h
  obtain ⟨u, w₁, hu, h₁⟩ := estate_bind_eq_ok h
  obtain ⟨v, w₂, hv, h₂⟩ := estate_bind_eq_ok h₁
  obtain ⟨hargument, rfl⟩ := Work.of_ofExcept_eq_ok hv
  obtain ⟨us, w₃, hus, h₃⟩ := estate_bind_eq_ok h₂
  cases h₃
  exact ⟨u, v, us, _, hu, hargument, hus, rfl⟩

/-- The null variable as an expression. -/
theorem Expression.eval_null (host : Host σ) (mode : Mode) (w : Store × σ) :
    (Expression.last (.var nullName)).eval host mode w = .ok (mode.null w.1) w := by
  cases mode <;> rfl

/-- A required argument is passed as the kind that its parameter names. -/
theorem Param.Walk.required {null : Value} {p : Param} {rest : List Param} {u v : Value}
    {vs : List Value} (hp : p ≠ .stop ∧ p ≠ .skip ∧ p ≠ .optional) (hvalue : p ≠ .value)
    (hv : Eval.argument p u = .ok v) (h : Walk null rest vs) : Walk null (p :: rest) (v :: vs) := by
  cases p with
  | str =>
    cases hv
    exact .str _ h
  | num =>
    obtain ⟨n, _, hn⟩ := except_bind_eq_ok (f := fun n => .ok (Value.int n)) hv
    cases hn
    exact .num n h
  | float =>
    obtain ⟨x, _, hx⟩ := except_bind_eq_ok (f := fun x => .ok (Value.single x)) hv
    cases hx
    exact .float x h
  | value => exact absurd rfl hvalue
  | optional => exact absurd rfl hp.2.2
  | skip => exact absurd rfl hp.2.1
  | stop => exact absurd rfl hp.1

theorem Param.Walk.another {null : Value} {rest : List Param} {vs : List Value} (v : Value)
    (h : Walk null (.optional :: rest) vs) : Walk null (.optional :: rest) (v :: vs) := by
  cases h with
  | optional rest us => exact .optional rest (v :: us)

/-- The values of arguments that fit a shape walk it.  Nothing is evaluated behind the
null variable, so it is read as it stands when the call is made. -/
theorem Args.Fits.walk {host : Host σ} {mode : Mode} {params : List Param} {as : Args}
    (h : as.Fits params) (hvalue : Param.value ∉ params) {w w' : Store × σ} {vs : List Value}
    (has : as.eval host mode w = .ok vs w') : Param.Walk (mode.null w'.1) params vs := by
  induction h generalizing w vs with
  | done =>
    cases has
    exact .done
  | stop rest =>
    cases has
    exact .stop rest
  | skip h ih => exact .skip (ih (List.not_mem_of_not_mem_cons hvalue) has)
  | required e hp h ih =>
    obtain ⟨u, v, us, w₁, _, hv, hus, rfl⟩ := Args.of_eval_cons has
    exact .required hp (fun heq => hvalue (heq ▸ List.mem_cons_self)) hv
      (ih (List.not_mem_of_not_mem_cons hvalue) hus)
  | another e h ih =>
    obtain ⟨u, v, us, w₁, _, _, hus, rfl⟩ := Args.of_eval_cons has
    exact .another v (ih hvalue hus)
  | null rest =>
    obtain ⟨u, v, us, w₁, hu, hv, hus, rfl⟩ := Args.of_eval_cons has
    rw [Expression.eval_null] at hu
    cases hu
    cases hv
    cases hus
    exact .optional rest []

-- ============================================================================
-- Records
-- ============================================================================

/-- The invariant holds where the step ends, well or not. -/
theorem Exec.Kept.finalState {α : Type} {I : Store × σ → Prop} {Q : α → Machine → Prop}
    {r : EStateM.Result Error (Machine × σ) α} (h : Kept I Q r) :
    I ((Exec.finalState r).1.store, (Exec.finalState r).2) := by
  cases r with
  | ok a w => exact h.1
  | error e w => exact h.1

/-- The call conforms to a function of the set: its arguments walk the shape. -/
def Host.Call.Conforms (D : Signatures) (call : Host.Call) : Prop :=
  ∃ params, D call.code params ∧ Param.Walk call.null params call.args

/-- All calls of the record conform. -/
def Host.AllConform (D : Signatures) (s : σ × List Host.Call) : Prop :=
  ∀ call ∈ s.2, call.Conforms D

/-- A call that the set allows, made with the values of its arguments, is recorded as
one that conforms. -/
theorem Host.recorded_respects (host : Host σ) (mode : Mode) {D : Signatures}
    (hD : ∀ code params, D code params → Param.value ∉ params) :
    host.recorded.Respects mode (fun w => Host.AllConform D w.2) D.Allow := by
  rintro code as ⟨params, hcode, hfits⟩ w vs ⟨store, s, log⟩ has hlog
  have hwalk := hfits.walk (hD code params hcode) has
  have hall : ∀ call ∈ (⟨code, vs, mode.null store⟩ : Host.Call) :: log, call.Conforms D :=
    List.forall_mem_cons.2 ⟨⟨params, hcode, hwalk⟩, hlog⟩
  cases mode with
  | run =>
    simp only [Work.invoke, Host.recorded]
    cases host.call code vs (store, s) <;> exact hall
  | scan =>
    simp only [Work.invoke, Host.recorded]
    cases host.check code vs s <;> exact hall

/-- Well-formed code that 63 bits can address is closed. -/
theorem Code.WellFormed.closed {c : Code} {is : List Instruction} (h : c.WellFormed is)
    (hsize : c.size < 2 ^ 63) : c.Closed (Instruction.located 0 is) where
  reading := h.reading
  stops := by
    have hlast := h.stops
    rw [← Instruction.map_snd_located 0 is, List.getLast?_map] at hlast
    obtain ⟨⟨a, i⟩, ha, hi⟩ := Option.map_eq_some_iff.1 hlast
    cases hi
    exact ⟨a, ha⟩
  lands := by
    intro a i hi dest hdest
    obtain ⟨b, j, hj, hb, rfl⟩ := h.lands a i hi dest hdest
    exact ⟨b, j, hj, Int64.toInt_ofNat_of_lt (Nat.lt_trans hb hsize)⟩

/-- A stream that ends in an instruction begins with one. -/
theorem Code.Closed.head_mem {c : Code} {is : List Instruction}
    (h : c.Closed (Instruction.located 0 is)) : ∃ i, (0, i) ∈ Instruction.located 0 is := by
  obtain ⟨a, ha⟩ := h.stops
  cases is with
  | nil => cases ha
  | cons i is => exact ⟨i, List.mem_cons_self⟩

/-- Every call that the host receives in the step `x` from the state `w` on conforms.
The calls are those that are recorded where the host remembers them, and remembering
them does not change the step. -/
structure Host.CallsConform {α : Type} (host : Host σ) (D : Signatures)
    (x : (τ : Type) → Host τ → Exec τ α) (w : Machine × σ) : Prop where
  same : forget (x _ host.recorded (w.1, w.2, [])) = x _ host w
  conform : ∀ call ∈ (Exec.finalState (x _ host.recorded (w.1, w.2, []))).2.2, call.Conforms D

section
variable {D : Signatures} {c : Code} {is : List Instruction}
  (hD : ∀ code params, D code params → Param.value ∉ params)
  (hc : c.Closed (Instruction.located 0 is)) (hcalls : ∀ i ∈ is, ∀ x ∈ i.calls, D.Allow x)
include hD hc hcalls

/-- Along any number of steps the record holds calls that conform. -/
theorem Exec.steps_conform (host : Host σ) {mode : Mode} {m : Machine}
    (hm : m.OnTrack c (Instruction.located 0 is) mode) (n : Nat) (s : σ) :
    Host.AllConform D (Exec.finalState (Exec.steps host.recorded n (m, s, []))).2 := by
  have hempty : Host.AllConform D (s, ([] : List Host.Call)) := fun _ hcall => nomatch hcall
  exact (Exec.steps_closed (host.recorded_respects mode hD) (fun _ _ _ h => h) hc
    (fun a i hi => hcalls i (Instruction.mem_of_mem_located hi))
    (fun _ _ _ _ _ _ _ _ _ _ h => h) n hm (s, []) hempty).finalState

theorem Machine.scan_conform (host : Host σ) (m : Machine) (s : σ) :
    Host.AllConform D (Exec.finalState (Machine.scan host.recorded c 0 (m, s, []))).2 := by
  obtain ⟨i, hi⟩ := hc.head_mem
  have hload : Machine.load c 0 m = .ok () { m with code := c, position := 0 } := by
    rw [Machine.load, Code.seek, if_pos (Code.has_of_mem hc.reading hi).lt_size]
  have htrack : Machine.OnTrack c (Instruction.located 0 is) .scan
      { m with code := c, position := 0, mode := .scan, running := true } :=
    ⟨rfl, rfl, fun _ => ⟨i, hi⟩⟩
  have hsteps := Exec.steps_conform hD hc hcalls host htrack (c.size + 1) s
  simp only [Machine.scan, hload]
  cases hr : Exec.steps host.recorded (c.size + 1)
      ({ m with code := c, position := 0, mode := .scan, running := true }, s, []) with
  | ok b w =>
    rw [hr] at hsteps
    exact hsteps
  | error e w =>
    rw [hr] at hsteps
    exact hsteps

end

-- ============================================================================
-- Compiled scripts
-- ============================================================================

namespace Compile

/-- A declared shape is one of a script. -/
theorem value_not_mem_of_declared {config : Config} {feeds : List Feed} {code : UInt16}
    {params : List Param} (h : Declared config feeds code params) : Param.value ∉ params := by
  obtain ⟨feed, d, _, hfeed⟩ := h
  cases feed with
  | script file source =>
    obtain ⟨text, e, _, statements, _, s, _, _, _, head, t, _, _, hdeclares⟩ := hfeed
    obtain ⟨_, shape, _, _, _, _, _, _, _, hshape, _⟩ := hdeclares
    exact Param.value_not_mem_of_shape hshape
  | enumeration file source => exact hfeed.elim
  | table file source => exact hfeed.elim

/-- A finished program calls declared functions only, with the arguments that their
shapes ask for; and it stores into the value under test and into variables that its
scripts assign to, and into no other. -/
theorem finished_uses {config : Config} {feeds : List Feed} {p : Program} {c : Compiler}
    (h : (do feeds.forM Feed.load; finish : Compile Program) (Compiler.ofConfig config) = .ok p c) :
    ∃ is, p.code.WellFormed is ∧ (∀ i ∈ is, ∀ x ∈ i.calls, (Declared config feeds).Allow x) ∧
      ∀ i ∈ is, ∀ name, i.target? = some name → name = caseName ∨ Assigned config feeds name := by
  obtain ⟨_, d, hfeeds, hfinish⟩ := bind_eq_ok_iff.1 h
  obtain ⟨ps, hcode, hfixups, hlegible, hcut, huses⟩ := ofConfig_grows_uses (feeds_grow hfeeds)
  obtain ⟨hbytes, hsome⟩ := finish_plan hcode hfixups hfinish
  -- the `stop` behind the plan calls nothing and stores nothing
  have hstop : Plan.Uses (Declared config feeds)
      (fun name => name = caseName ∨ Assigned config feeds name) [.plain .stop] :=
    @Plan.uses_ofInstructions _ _ [.stop] (by simp [Instruction.calls])
      (by simp [Instruction.target?])
  have hall := Plan.uses_append huses hstop
  refine ⟨_, Plan.wellFormed hlegible hbytes hsome hcut, fun i hi x hx => ?_,
    fun i hi name hname => ?_⟩ <;> obtain ⟨q, hq, rfl⟩ := List.mem_map.1 hi
  · rw [Planned.calls_resolved] at hx
    exact hall.calls q hq x hx
  · rw [Planned.target?_resolved] at hname
    exact hall.targets q hq name hname

theorem finished_calls_allowed {config : Config} {feeds : List Feed} {p : Program} {c : Compiler}
    (h : (do feeds.forM Feed.load; finish : Compile Program) (Compiler.ofConfig config) = .ok p c) :
    ∃ is, p.code.WellFormed is ∧ ∀ i ∈ is, ∀ x ∈ i.calls, (Declared config feeds).Allow x := by
  obtain ⟨is, hwf, hcalls, _⟩ := finished_uses h
  exact ⟨is, hwf, hcalls⟩

/-! ## A script that calls -/

/-- A line that calls a known function. -/
theorem line_call_eq_ok {text : List Char} {head : String} {s t : Scanner} {code : UInt16}
    {params : List Param} {c c' : Compiler} {u : t.From}
    (hline : head? headStop text c = .ok (some (head, s)) c)
    (hstatement : head? ('%' :: headStop) text c = .ok (some (head, t)) c)
    (hsymbol : c.symbols.get? head = some (.function code params))
    (htext : Source.statements c.config.stem text = .ok [text])
    (hcall : emit (·.call code params t) c = .ok u c') : line text c = .ok () c' := by
  rw [line_of_symbol hline hstatement hsymbol nofun htext]
  exact bind_eq_ok_iff.2 ⟨u, c', hcall, rfl⟩

theorem expression_nothing (ctx : Context) (o : Nat) :
    ctx.expression true ⟨o, []⟩ = ⟨[], .ok (.absent ⟨o, []⟩ (Nat.le_refl _))⟩ := by
  have hoperand : ctx.operand true (Scanner.skip (blanks ++ ['[']) ⟨o, []⟩) =
      ⟨[], .ok (.absent ⟨o, []⟩ (Nat.le_refl _))⟩ := by
    rw [Context.operand]
    rfl
  rw [Context.expression]
  dsimp only
  rw [hoperand]
  rfl

/-- The items of a call without arguments where one is optional. -/
def nullCall (code : UInt16) : List Item :=
  [.code .func, .func code, .param .optional, .var nullName, .operator .close, .paramsEnd]

theorem call_nothing {ctx : Context} {code : UInt16} (h : ctx.mayCall code = .ok ()) (o : Nat) :
    ctx.call code [.optional] ⟨o, []⟩ = ⟨nullCall code, .ok ⟨⟨o, []⟩, Nat.le_refl _⟩⟩ := by
  have hnull : (Item.var nullName).check = .ok () := Item.check_var_iff.2 (by decide)
  rw [Context.call, h, Context.arguments, expression_nothing]
  simp only [bind, Draft.bind, Draft.put, Draft.ofExcept, hnull]
  rfl

/-- A script that declares a function and calls it. -/
def callingScript : String :=
  "declare show ? 7\nshow\n"

/-- The compile run behind the declaration. -/
def declaring : Compiler :=
  match line "declare show ? 7".toList (fresh "") with
  | .ok _ c | .error _ c => c

/-- The compile run behind the call. -/
def calling : Compiler :=
  { declaring with program := declaring.program.writeAll (nullCall 7) }

theorem line_declaring : line "declare show ? 7".toList (fresh "") = .ok () declaring := by
  have hok : (match line "declare show ? 7".toList (fresh "") with
    | .ok _ _ => true
    | .error _ _ => false) = true := by decide +kernel
  unfold declaring
  split at hok
  · rename_i heq
    rw [heq]
  · cases hok

theorem declaring_state : declaring.symbols.get? "show" = some (.function 7 [.optional]) ∧
    declaring.structures.top? = none ∧ declaring.blockChecked.contains 7 = false ∧
    declaring.config.stem = "$" := by
  decide +kernel

theorem mayCall_declaring : declaring.context.mayCall 7 = .ok () := by
  obtain ⟨_, htop, hfree, _⟩ := declaring_state
  have hswitch : declaring.checkSwitch none = .ok () := if_pos (.inr (by simp [htop]))
  show declaring.mayCall 7 = _
  unfold Compiler.mayCall
  rw [hswitch, hfree]
  rfl

theorem line_calling : line "show".toList declaring = .ok () calling := by
  obtain ⟨hsymbol, _, _, hstem⟩ := declaring_state
  have hhead : ∀ c : Compiler, head? headStop "show".toList c = .ok (some ("show", ⟨4, []⟩)) c ∧
      head? ('%' :: headStop) "show".toList c = .ok (some ("show", ⟨4, []⟩)) c :=
    fun _ => ⟨rfl, rfl⟩
  have htext : Source.statements declaring.config.stem "show".toList = .ok ["show".toList] := by
    rw [hstem]
    rfl
  have hcall : emit (·.call 7 [.optional] ⟨4, []⟩) declaring = .ok _ calling :=
    emit_eq_ok_iff.2 ⟨nullCall 7, call_nothing mayCall_declaring 4, by unfold calling; rfl⟩
  exact line_call_eq_ok (hhead _).1 (hhead _).2 hsymbol htext hcall

theorem load_calling :
    [Feed.script "" callingScript].forM Feed.load (Compiler.ofConfig {}) = .ok () calling := by
  have hlines : Source.lines callingScript = ["declare show ? 7".toList, "show".toList] := by
    decide +kernel
  have htakes : Takes (fresh "") (Source.lines callingScript) calling := by
    rw [hlines]
    exact .cons line_declaring (.cons line_calling (.nil calling))
  exact bind_eq_ok_iff.2 ⟨(), calling, script_eq_ok_iff.2 htakes, rfl⟩

/-- An action whose result passes a test has a result. -/
theorem exists_of_run'_any {α : Type} {x : Compile α} {c : Compiler} {test : α → Bool}
    (h : (x.run' c).any test = true) : ∃ a c', x c = .ok a c' ∧ test a = true := by
  unfold EStateM.run' at h
  cases heq : x.run c with
  | ok a c' =>
    rw [heq] at h
    exact ⟨a, c', heq, h⟩
  | error =>
    rw [heq] at h
    cases h

theorem finish_calling : ∃ p c, finish calling = .ok p c ∧ p.code.size < 2 ^ 63 := by
  have hok : (finish.run' calling).any (fun p => decide (p.code.size < 2 ^ 63)) = true := by
    decide +kernel
  obtain ⟨p, c, hp, hsize⟩ := exists_of_run'_any hok
  exact ⟨p, c, hp, of_decide_eq_true hsize⟩

/-! ## Conforming calls -/

/-- Calls conform to declarations.  Whatever scripts and tables are compiled, each call
that a host receives in a run of the finished program from its start, with jumps on or
off, and each call that it is asked about in a scan, is one of a declared function, and
its arguments are the values that the declared shape gives: nothing is missing and
nothing is added. -/
theorem calls_conform (config : Config) (feeds : List Feed) (p : Program) (c : Compiler)
    (h : (do feeds.forM Feed.load; finish : Compile Program) (Compiler.ofConfig config) = .ok p c)
    (hsize : p.code.size < 2 ^ 63) (host : Host σ) (lock : Bool) (m₀ : Machine) (s : σ) :
    (∃ m, Machine.start p.code 0 lock m₀ = .ok () m ∧ ∀ n,
      host.CallsConform (Declared config feeds) (fun _ host => Exec.steps host n) (m, s)) ∧
    host.CallsConform (Declared config feeds) (fun _ host => Machine.scan host p.code 0) (m₀, s) := by
  obtain ⟨is, hwf, hcalls⟩ := finished_calls_allowed h
  have hc := hwf.closed hsize
  have hD : ∀ code params, Declared config feeds code params → Param.value ∉ params :=
    fun _ _ => value_not_mem_of_declared
  obtain ⟨i, hi⟩ := hc.head_mem
  obtain ⟨m, hstart, hm⟩ := Machine.start_onTrack hc.reading hi lock m₀
  refine ⟨⟨m, hstart, fun n => ⟨Exec.steps_recorded host n m s [], ?_⟩⟩,
    Machine.scan_recorded host p.code 0 m₀ s [], ?_⟩
  · exact Exec.steps_conform hD hc hcalls host hm n s
  · exact Machine.scan_conform hD hc hcalls host m₀ s

theorem callingScript_conforms :
    ∃ p c, (do [Feed.script "" callingScript].forM Feed.load; finish : Compile Program)
        (Compiler.ofConfig {}) = .ok p c ∧ p.code.size < 2 ^ 63 ∧
      (∃ m, Machine.start p.code 0 false {} = .ok () m ∧ ∀ n,
        Host.mute.CallsConform (Declared {} [Feed.script "" callingScript])
          (fun _ host => Exec.steps host n) (m, ())) ∧
      Host.mute.CallsConform (Declared {} [Feed.script "" callingScript])
        (fun _ host => Machine.scan host p.code 0) ({}, ()) := by
  obtain ⟨p, c, hfinish, hsize⟩ := finish_calling
  have hrun : (do [Feed.script "" callingScript].forM Feed.load; finish : Compile Program)
      (Compiler.ofConfig {}) = .ok p c := bind_eq_ok_iff.2 ⟨(), calling, load_calling, hfinish⟩
  exact ⟨p, c, hrun, hsize, calls_conform {} _ p c hrun hsize Host.mute false {} ()⟩

end Compile

end ScriptMachine
