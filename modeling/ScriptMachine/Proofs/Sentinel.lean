/-
  ScriptMachine.Proofs.Sentinel

  The null variable stays 0.  That it is there and holds 0 is an invariant of the variables:
  storing into any other variable keeps it, and so does a host that leaves it alone
  (`Host.Spares.recorded`).  So as long as no script assigns to `NULL`, it is there in every
  state of a run and reads as 0, as a missing variable does, and 0 is what stands for an
  absent argument (`Compile.null_reads_zero`).
-/

import ScriptMachine.Proofs.Conformance

namespace ScriptMachine

variable {σ α : Type}

-- ============================================================================
-- The null variable
-- ============================================================================

/-- The state in which work ends, well or not. -/
def Work.finalState : EStateM.Result Error (Store × σ) α → Store × σ
  | .ok _ w => w
  | .error _ w => w

/-- The host leaves the variable as it is, whatever else it does. -/
def Host.Spares (host : Host σ) (name : String) : Prop :=
  ∀ code args w, (Work.finalState (host.call code args w)).1.get? name = w.1.get? name

/-- The null variable is there and holds 0. -/
def Store.NullIsZero (store : Store) : Prop :=
  store.get? nullName = some (.int 0)

theorem Store.nullIsZero_initial : Store.NullIsZero .initial := by
  simp [NullIsZero, get?, initial]
  rfl

theorem Store.NullIsZero.fetch {store : Store} (h : store.NullIsZero) :
    store.fetch nullName = .int 0 := by
  rw [Store.fetch, h]
  rfl

theorem Store.NullIsZero.contains {store : Store} (h : store.NullIsZero) :
    store.contains nullName = true := by
  rw [Store.contains_eq, h]
  rfl

/-- A variable that is not there reads as 0. -/
theorem Store.fetch_missing {store : Store} {name : String} (h : store.contains name = false) :
    store.fetch name = .int 0 := by
  rw [Store.contains_eq, Option.isSome_eq_false_iff, Option.isNone_iff_eq_none] at h
  rw [Store.fetch, h]
  rfl

/-- The null variable holds 0, and did so whenever a call of the record was made. -/
def NullZero (w : Store × σ × List Host.Call) : Prop :=
  w.1.NullIsZero ∧ ∀ call ∈ w.2.2, call.null = .int 0

theorem settable_of_ne_null {name : String} (h : name ≠ nullName) :
    Store.Settable (NullZero (σ := σ)) name := by
  intro store t s v ht hw
  refine ⟨?_, hw.2⟩
  rw [Store.NullIsZero, Store.get?_store ht, if_neg h]
  exact hw.1

/-- Calls of a host that leaves the null variable alone are recorded with 0 for it. -/
theorem Host.Spares.recorded {host : Host σ} (hhost : host.Spares nullName) :
    host.recorded.Respects .run NullZero fun _ => True := by
  rintro code as - w vs ⟨store, s, log⟩ - hw
  have hspares := hhost code vs (store, s)
  have hlog : ∀ call ∈ (⟨code, vs, Mode.run.null store⟩ : Host.Call) :: log,
      call.null = .int 0 := List.forall_mem_cons.2 ⟨hw.1.fetch, hw.2⟩
  simp only [Work.invoke, Host.recorded]
  cases hr : host.call code vs (store, s) with
  | ok v w' =>
    rw [hr] at hspares
    exact ⟨hspares.trans hw.1, hlog⟩
  | error e w' =>
    rw [hr] at hspares
    exact ⟨hspares.trans hw.1, hlog⟩

namespace Compile

/-- `NULL` always reads as 0, as long as it is left alone.  Whatever scripts and tables are
compiled, if no statement assigns to `NULL` and the host leaves it as it is, then in every
state of a run of the finished program from its start, well or failed, with jumps on or off,
`NULL` is there and reads as 0, which is also what every missing variable reads as; and every
call that the host has received walks a declared shape with 0 for the absent argument. -/
theorem null_reads_zero (config : Config) (feeds : List Feed) (p : Program) (c : Compiler)
    (h : (do feeds.forM Feed.load; finish : Compile Program) (Compiler.ofConfig config) = .ok p c)
    (hsize : p.code.size < 2 ^ 63) (hnull : ¬ Assigned config feeds nullName) (host : Host σ)
    (hhost : host.Spares nullName) (lock : Bool) (m₀ : Machine) (s : σ) :
    ∃ m, Machine.start p.code 0 lock m₀ = .ok () m ∧ ∀ n,
      let store := (Exec.finalState (Exec.steps host n (m, s))).1.store
      store.contains nullName = true ∧ store.fetch nullName = .int 0 ∧
      (∀ name, store.contains name = false → store.fetch name = store.fetch nullName) ∧
      forget (Exec.steps host.recorded n (m, s, [])) = Exec.steps host n (m, s) ∧
      ∀ call ∈ (Exec.finalState (Exec.steps host.recorded n (m, s, []))).2.2,
        ∃ params, Declared config feeds call.code params ∧ Param.Walk (.int 0) params call.args := by
  obtain ⟨is, hwf, hcalls, hstores⟩ := finished_uses h
  have hc := hwf.closed hsize
  have htargets : ∀ a i, (a, i) ∈ Instruction.located 0 is → ∀ name, i.target? = some name →
      Store.Settable (NullZero (σ := σ)) name := by
    intro a i hi name hname
    refine settable_of_ne_null fun heq => ?_
    subst heq
    rcases hstores i (Instruction.mem_of_mem_located hi) _ hname with hcase | hassigned
    · exact absurd hcase (by decide)
    · exact hnull hassigned
  obtain ⟨i, hi⟩ := hc.head_mem
  obtain ⟨m, hstart, hm⟩ := Machine.start_onTrack hc.reading hi lock m₀
  have hbegin : NullZero (m.store, s, []) := by
    rw [Machine.start_eq_ok (Code.has_of_mem hc.reading hi).lt_size] at hstart
    cases hstart
    exact ⟨Store.nullIsZero_initial, fun _ hcall => nomatch hcall⟩
  refine ⟨m, hstart, fun n => ?_⟩
  have hforget := Exec.steps_recorded host n m s []
  obtain ⟨hzero, hlog⟩ := (Exec.steps_closed hhost.recorded (fun _ _ _ h => h) hc
    (fun _ _ _ _ _ => trivial) htargets n hm (s, []) hbegin).finalState
  have hconform := Exec.steps_conform (fun _ _ => value_not_mem_of_declared) hc hcalls host hm n s
  have hstore : (Exec.finalState (Exec.steps host n (m, s))).1.store =
      (Exec.finalState (Exec.steps host.recorded n (m, s, []))).1.store := by
    rw [← hforget]
    cases Exec.steps host.recorded n (m, s, []) <;> rfl
  dsimp only
  rw [hstore]
  refine ⟨hzero.contains, hzero.fetch, fun name hname => ?_, hforget, fun call hcall => ?_⟩
  · rw [Store.fetch_missing hname, hzero.fetch]
  · obtain ⟨params, hdeclared, hwalk⟩ := hconform call hcall
    rw [hlog call hcall] at hwalk
    exact ⟨params, hdeclared, hwalk⟩

theorem visits_singleton {f : α → Compile Unit} {a b : α} {c d : Compiler}
    (h : Visits f [a] c b d) : b = a ∧ d = c := by
  cases h with
  | here => exact ⟨rfl, rfl⟩
  | later _ hrest => cases hrest

theorem visits_cons {f : α → Compile Unit} {a b : α} {as : List α} {c d : Compiler}
    (h : Visits f (a :: as) c b d) :
    b = a ∧ d = c ∨ ∃ c', f a c = .ok () c' ∧ Visits f as c' b d := by
  cases h with
  | here => exact .inl ⟨rfl, rfl⟩
  | later h hrest => exact .inr ⟨_, h, hrest⟩

/-- The lines of the script that calls, and what the states know in which they are
taken. -/
theorem visits_callingScript {file source : String} {d e : Compiler} {text : List Char}
    (hfeed : Visits Feed.load [Feed.script "" callingScript] (Compiler.ofConfig {})
      (.script file source) d)
    (htext : Visits line (Source.lines source) (loading d file) text e) :
    text = "declare show ? 7".toList ∧ e.symbols.get? "declare" = some (.command .declare) ∧
      e.checkSwitch (some .declare) = .ok () ∧ e.config.stem = "$" ∨
    text = "show".toList ∧ e.symbols.get? "show" = some (.function 7 [.optional]) ∧
      e.config.stem = "$" := by
  have hlines : Source.lines callingScript = ["declare show ? 7".toList, "show".toList] := by
    decide +kernel
  obtain ⟨heq, rfl⟩ := visits_singleton hfeed
  obtain ⟨rfl, rfl⟩ := Feed.script.inj heq
  rw [hlines] at htext
  rcases visits_cons htext with ⟨htext, he⟩ | ⟨c, hline, hrest⟩
  · rw [he]
    exact .inl ⟨htext, by decide +kernel, if_pos (.inr (by decide)), rfl⟩
  · obtain ⟨htext, he⟩ := visits_singleton hrest
    obtain ⟨hshow, _, _, hstem⟩ := declaring_state
    rw [he, ← (EStateM.Result.ok.inj (line_declaring.symm.trans hline)).2]
    exact .inr ⟨htext, hshow, hstem⟩

/-- A line that declares a function and is one statement. -/
theorem opening_declare {text : List Char} {s : Scanner} {c : Compiler}
    (hhead : head? headStop text c = .ok (some ("declare", s)) c)
    (hsymbol : c.symbols.get? "declare" = some (.command .declare))
    (hswitch : c.checkSwitch (some .declare) = .ok ())
    (htext : Source.statements c.config.stem text = .ok [text]) : opening text c = .ok [text] c := by
  refine bind_eq_ok_iff.2 ⟨_, c, hhead, bind_eq_ok_iff.2 ⟨c, c, rfl, ?_⟩⟩
  dsimp only
  rw [hsymbol]
  refine bind_eq_ok_iff.2 ⟨(), c, ask_eq_ok_iff.2 ⟨hswitch, rfl⟩, bind_eq_ok_iff.2 ⟨(), c, rfl, ?_⟩⟩
  exact bind_eq_ok_iff.2 ⟨c, c, rfl, ofExcept_eq_ok_iff.2 ⟨htext, rfl⟩⟩

/-- A statement whose first word is another command or a function assigns nothing. -/
theorem not_statementAssigns {text : List Char} {head name : String} {s : Scanner} {c : Compiler}
    {symbol : Symbol} (hhead : head? ('%' :: headStop) text c = .ok (some (head, s)) c)
    (hsymbol : c.symbols.get? head = some symbol) (hcommand : symbol ≠ .command .var)
    (hvar : symbol ≠ .var) : ¬ StatementAssigns text c name := by
  rintro ⟨head', t, hhead', hassigns⟩
  obtain ⟨heq, _⟩ := EStateM.Result.ok.inj (hhead.symm.trans hhead')
  obtain ⟨rfl, rfl⟩ := Prod.mk.inj (Option.some.inj heq)
  rw [hsymbol] at hassigns
  rcases hassigns with ⟨hword, _⟩ | ⟨hword | hword, _⟩
  · exact hcommand (Option.some.inj hword)
  · exact hvar (Option.some.inj hword)
  · cases hword

/-- The script that calls assigns to no variable. -/
theorem callingScript_assigns_nothing (name : String) :
    ¬ Assigned {} [Feed.script "" callingScript] name := by
  rintro ⟨s, e, ⟨file, source, d, text, d', statements, d'', hfeed, htext, hopening, hs⟩, hassigns⟩
  rcases visits_callingScript hfeed htext with ⟨rfl, hdeclare, hswitch, hstem⟩ | ⟨rfl, hshow, hstem⟩
  · have hhead : ∀ c : Compiler,
        head? headStop "declare show ? 7".toList c =
          .ok (some ("declare", ⟨7, " show ? 7".toList⟩)) c ∧
        head? ('%' :: headStop) "declare show ? 7".toList c =
          .ok (some ("declare", ⟨7, " show ? 7".toList⟩)) c := fun _ => ⟨rfl, rfl⟩
    have hstatements : Source.statements d'.config.stem "declare show ? 7".toList =
        .ok ["declare show ? 7".toList] := by
      rw [hstem]
      decide +kernel
    have hline := opening_declare (hhead d').1 hdeclare hswitch hstatements
    obtain ⟨rfl, rfl⟩ := EStateM.Result.ok.inj (hline.symm.trans hopening)
    obtain ⟨rfl, rfl⟩ := visits_singleton hs
    exact not_statementAssigns (hhead _).2 hdeclare (by simp) (by simp) hassigns
  · have hhead : ∀ c : Compiler,
        head? headStop "show".toList c = .ok (some ("show", ⟨4, []⟩)) c ∧
        head? ('%' :: headStop) "show".toList c = .ok (some ("show", ⟨4, []⟩)) c :=
      fun _ => ⟨rfl, rfl⟩
    have hline : opening "show".toList d' = .ok ["show".toList] d' := by
      rw [opening_of_passes (hhead d').1 (.inl ⟨_, hshow, fun _ heq => by cases heq⟩), hstem]
      rfl
    obtain ⟨rfl, rfl⟩ := EStateM.Result.ok.inj (hline.symm.trans hopening)
    obtain ⟨rfl, rfl⟩ := visits_singleton hs
    exact not_statementAssigns (hhead _).2 hshow (by simp) (by simp) hassigns

theorem callingScript_reads_zero :
    ∃ p c, (do [Feed.script "" callingScript].forM Feed.load; finish : Compile Program)
        (Compiler.ofConfig {}) = .ok p c ∧ p.code.size < 2 ^ 63 ∧
      ¬ Assigned {} [Feed.script "" callingScript] nullName ∧ Host.mute.Spares nullName ∧
      ∃ m, Machine.start p.code 0 false {} = .ok () m ∧ ∀ n,
        let store := (Exec.finalState (Exec.steps Host.mute n (m, ()))).1.store
        store.contains nullName = true ∧ store.fetch nullName = .int 0 ∧
        (∀ name, store.contains name = false → store.fetch name = store.fetch nullName) ∧
        forget (Exec.steps Host.mute.recorded n (m, (), [])) = Exec.steps Host.mute n (m, ()) ∧
        ∀ call ∈ (Exec.finalState (Exec.steps Host.mute.recorded n (m, (), []))).2.2,
          ∃ params, Declared {} [Feed.script "" callingScript] call.code params ∧
            Param.Walk (.int 0) params call.args := by
  obtain ⟨p, c, hfinish, hsize⟩ := finish_calling
  have hrun : (do [Feed.script "" callingScript].forM Feed.load; finish : Compile Program)
      (Compiler.ofConfig {}) = .ok p c := bind_eq_ok_iff.2 ⟨(), calling, load_calling, hfinish⟩
  have hnull := callingScript_assigns_nothing nullName
  have hspares : Host.mute.Spares nullName := fun _ _ _ => rfl
  exact ⟨p, c, hrun, hsize, hnull, hspares,
    null_reads_zero {} _ p c hrun hsize hnull Host.mute hspares false {} ()⟩

end Compile

end ScriptMachine
