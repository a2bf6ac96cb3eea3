/-
  ScriptMachine.Proofs.Structured.Simulation

  Instructions that are placed as a part of a script do what the part means.  For
  every construct there is one lemma: if the instructions of its parts implement
  the parts, its own instructions implement the construct.  Both directions of the
  correspondence go through the same lemmas: an outcome of the part is where the
  machine arrives, and a part without an outcome keeps the machine running
  (`Implements`).
-/

import ScriptMachine.Proofs.Structured.Stepping

namespace ScriptMachine.Structured

variable {σ : Type}

/-! ## Implementing a meaning -/

/-- How the instructions of a part are left: at their end, out of the loop around
them, or out of the choice around them; `depth` values are saved meanwhile. -/
structure Exits where
  depth : Nat
  finish : Nat
  looped : Bool
  exit : Nat
  leave : Nat

/-- Storing by `put` is what the machine does with the variables that satisfy
`inv`, for these names. -/
structure Faithful (put : Put) (inv : Store → Prop) (names : List String) : Prop where
  agrees : ∀ s x v, inv s → x ∈ names → s.store x v = put s x v
  keeps : ∀ s x v s', inv s → x ∈ names → put s x v = .ok s' → inv s'

section
variable (host : Host σ) (m : Machine) (h : σ) (inv : Store → Prop)

/-- The machine comes from `w` to where an outcome leads. -/
def Arrives (x : Exits) (w : Machine × σ) (st : Stack Value) : Outcome → Prop
  | .done s => inv s ∧ Exec.Goes host w (place m h x.finish s st)
  | .exited s => x.looped = true ∧ inv s ∧ Exec.Goes host w (place m h x.exit s st)
  | .left s => 0 < x.depth ∧ inv s ∧ Exec.Goes host w (place m h x.leave s st)
  | .failed kind => Exec.Fails host w kind

/-- The instructions from `start` on do what the meaning says: the machine arrives
wherever an outcome leads, and where there is no outcome it goes on for ever. -/
def Implements (x : Exits) (start : Nat) (R : Meaning) : Prop :=
  ∀ s st, inv s → Stack.size st = x.depth →
    (∀ o, R s o → Arrives host m h inv x (place m h start s st) st o) ∧
    ∀ n, (∃ o, R s o) ∨ Exec.Lasts host (place m h start s st) n

end

section
variable {host : Host σ} {m : Machine} {h : σ} {inv : Store → Prop} {x : Exits}
  {w w' : Machine × σ} {st : Stack Value} {start : Nat}

theorem Arrives.from {o : Outcome} (hg : Exec.Goes host w w')
    (ha : Arrives host m h inv x w' st o) :
    Arrives host m h inv x w st o := by
  cases o with
  | done s => exact ⟨ha.1, hg.trans ha.2⟩
  | exited s => exact ⟨ha.1, ha.2.1, hg.trans ha.2.2⟩
  | left s => exact ⟨ha.1, ha.2.1, hg.trans ha.2.2⟩
  | failed kind => exact hg.fails ha

/-- A meaning with one outcome for each state. -/
theorem implements_of_outcome {f : Store → Outcome}
    (hf : ∀ s st, inv s → Stack.size st = x.depth →
      Arrives host m h inv x (place m h start s st) st (f s)) :
    Implements host m h inv x start fun s o => o = f s := by
  intro s st hs hst
  refine ⟨?_, fun n => .inl ⟨f s, rfl⟩⟩
  rintro o rfl
  exact hf s st hs hst

theorem implements_skip (hstart : x.finish = start) :
    Implements host m h inv x start Meaning.skip := by
  refine implements_of_outcome fun s st hs _ => ⟨hs, ?_⟩
  rw [hstart]
  exact .refl _ _

/-- The instructions behind a part, when the machine comes past them anyway. -/
theorem Implements.then_goes {R : Meaning} {r : Nat}
    (hR : Implements host m h inv { x with finish := r } start R)
    (hg : ∀ s st, Exec.Goes host (place m h r s st) (place m h x.finish s st)) :
    Implements host m h inv x start R := by
  intro s st hs hst
  obtain ⟨hout, hlast⟩ := hR s st hs hst
  refine ⟨fun o ho => ?_, hlast⟩
  have ha := hout o ho
  cases o with
  | done s' => exact ⟨ha.1, ha.2.trans (hg s' st)⟩
  | exited s' => exact ha
  | left s' => exact ha
  | failed kind => exact ha

theorem implements_then {R S : Meaning} {q : Nat}
    (hR : Implements host m h inv { x with finish := q } start R)
    (hS : Implements host m h inv x q S) :
    Implements host m h inv x start (Meaning.Then R S) := by
  intro s st hs hst
  obtain ⟨hout, hlast⟩ := hR s st hs hst
  refine ⟨fun o ho => ?_, fun n => ?_⟩
  · cases ho with
    | goOn hr hs' =>
      obtain ⟨hinv, hg⟩ := hout _ hr
      exact ((hS _ st hinv hst).1 _ hs').from hg
    | stop hr hne =>
      have ha := hout _ hr
      cases o with
      | done s' => exact absurd rfl (hne s')
      | exited s' => exact ha
      | left s' => exact ha
      | failed kind => exact ha
  · rcases hlast n with ⟨o, ho⟩ | hlasts
    · by_cases hdone : ∃ s', o = .done s'
      · obtain ⟨s', rfl⟩ := hdone
        obtain ⟨hinv, hg⟩ := hout _ ho
        rcases (hS s' st hinv hst).2 n with ⟨o', ho'⟩ | hlasts
        · exact .inl ⟨o', .goOn ho ho'⟩
        · exact .inr (hg.lasts hlasts)
      · exact .inl ⟨o, .stop ho fun s' heq => hdone ⟨s', heq⟩⟩
    · exact .inr hlasts

/-! ## Branches and loops -/

/-- The instruction at `start` goes on at `q` or at `n`, as the test says. -/
def Decides (host : Host σ) (m : Machine) (h : σ) (start q n : Nat)
    (test : Store → Except Error Bool) : Prop :=
  ∀ s st, Steps host (place m h start s st)
    ((fun b => place m h (if b then q else n) s st) <$> test s)

section
variable {test : Store → Except Error Bool} {q n : Nat} (ht : Decides host m h start q n test)
include ht

theorem Decides.goes {s : Store} {b : Bool} (hb : test s = .ok b) (st : Stack Value) :
    Exec.steps host 1 (place m h start s st) =
      .ok false (place m h (if b then q else n) s st) := by
  have hsteps := ht s st
  rw [hb] at hsteps
  exact hsteps

theorem Decides.fails {s : Store} {e : Error} (he : test s = .error e) (st : Stack Value) :
    Exec.Fails host (place m h start s st) e.kind := by
  have hsteps := ht s st
  rw [he] at hsteps
  exact hsteps

theorem implements_either {R S : Meaning} (hR : Implements host m h inv x q R)
    (hS : Implements host m h inv x n S) :
    Implements host m h inv x start (Meaning.Either test R S) := by
  intro s st hs hst
  refine ⟨fun o ho => ?_, fun k => ?_⟩
  · cases ho with
    | yes hb hr => exact ((hR s st hs hst).1 o hr).from ⟨1, ht.goes hb st⟩
    | no hb hr => exact ((hS s st hs hst).1 o hr).from ⟨1, ht.goes hb st⟩
    | failed he => exact ht.fails he st
  · cases hb : test s with
    | error e => exact .inl ⟨_, .failed hb⟩
    | ok b =>
      have hg : Exec.Goes host (place m h start s st) _ := ⟨1, ht.goes hb st⟩
      cases b with
      | true =>
        rcases (hR s st hs hst).2 k with ⟨o, ho⟩ | hlasts
        · exact .inl ⟨o, .yes hb ho⟩
        · exact .inr (hg.lasts hlasts)
      | false =>
        rcases (hS s st hs hst).2 k with ⟨o, ho⟩ | hlasts
        · exact .inl ⟨o, .no hb ho⟩
        · exact .inr (hg.lasts hlasts)

/-- A loop: its body ends with a jump back to the test, and is left to the end of
the loop. -/
theorem implements_loop {R : Meaning} {r : Nat}
    (hn : n = x.finish) (hR : Implements host m h inv
      { x with finish := r, looped := true, exit := x.finish } q R)
    (hback : ∀ s st, Exec.Goes host (place m h r s st) (place m h start s st)) :
    Implements host m h inv x start (Meaning.Loop test R) := by
  subst hn
  intro s st hs hst
  refine ⟨fun o ho => ?_, fun k => ?_⟩
  · induction ho with
    | ended hb => exact ⟨hs, 1, ht.goes hb st⟩
    | @again s s' o hb hr _ ih =>
      obtain ⟨hinv, hg⟩ := (hR s st hs hst).1 _ hr
      have hround := Exec.Goes.trans ⟨1, ht.goes hb st⟩ (hg.trans (hback s' st))
      exact (ih hinv).from hround
    | @exit s s' hb hr =>
      obtain ⟨_, hinv, hg⟩ := (hR s st hs hst).1 _ hr
      exact ⟨hinv, Exec.Goes.trans ⟨1, ht.goes hb st⟩ hg⟩
    | @leave s s' hb hr =>
      obtain ⟨hdepth, hinv, hg⟩ := (hR s st hs hst).1 _ hr
      exact ⟨hdepth, hinv, Exec.Goes.trans ⟨1, ht.goes hb st⟩ hg⟩
    | @broken s kind hb hr => exact Exec.Goes.fails ⟨1, ht.goes hb st⟩ ((hR s st hs hst).1 _ hr)
    | failed he => exact ht.fails he st
  · -- every round takes at least the step of the test, so `k` rounds last `k` steps
    induction k generalizing s with
    | zero => exact .inr ⟨_, rfl⟩
    | succ k ih =>
      cases hb : test s with
      | error e => exact .inl ⟨_, .failed hb⟩
      | ok b =>
        have hstep := ht.goes hb st
        cases b with
        | false => exact .inl ⟨_, .ended hb⟩
        | true =>
          rcases (hR s st hs hst).2 (k + 1) with ⟨o, ho⟩ | hlasts
          · have ha := (hR s st hs hst).1 o ho
            cases o with
            | done s' =>
              rcases ih s' ha.1 with ⟨o', ho'⟩ | hlasts
              · exact .inl ⟨o', .again hb ho ho'⟩
              · exact .inr (Exec.lasts_succ hstep ((ha.2.trans (hback s' st)).lasts hlasts))
            | exited s' => exact .inl ⟨_, .exit hb ho⟩
            | left s' => exact .inl ⟨_, .leave hb ho⟩
            | failed kind => exact .inl ⟨_, .broken hb ho⟩
          · exact .inr (Exec.Goes.lasts ⟨1, hstep⟩ hlasts)

end

/-! ## Assignments and choices -/

section
variable {put : Put} {names : List String} (hput : Faithful put inv names)
include hput

theorem Change.apply_eq {s : Store} (hs : inv s) {y : Name} (hy : y.text ∈ names)
    (change : Change) : change.apply Store.store s y = change.apply put s y := by
  cases change with
  | store how e =>
    simp only [Change.apply, bind, Except.bind]
    cases e.value s with
    | error err => rfl
    | ok v =>
      cases hc : how.combine (s.fetch y.text) v with
      | error err => simp only [hc]
      | ok u => simp only [hc]; exact hput.agrees s _ u hs hy
  | increment => exact hput.agrees s _ _ hs hy
  | decrement => exact hput.agrees s _ _ hs hy

theorem Change.apply_keeps {s s' : Store} (hs : inv s) {y : Name} (hy : y.text ∈ names)
    {change : Change} (h : change.apply put s y = .ok s') : inv s' := by
  cases change with
  | store how e =>
    simp only [Change.apply, bind, Except.bind] at h
    split at h
    · cases h
    · split at h
      · cases h
      · exact hput.keeps s _ _ s' hs hy h
  | increment => exact hput.keeps s _ _ s' hs hy h
  | decrement => exact hput.keeps s _ _ s' hs hy h

theorem implements_change (hm : Ready m) {y : Name} (hy : y.text ∈ names) {change : Change}
    (hi : m.code.Has start (change.instruction y) x.finish) :
    Implements host m h inv x start fun s o => o = .of (change.apply put s y) := by
  refine implements_of_outcome fun s st hs _ => ?_
  have hsteps := @steps_change σ host m h start x.finish s st hm y change hi
  rw [Change.apply_eq hput hs hy] at hsteps
  cases ha : change.apply put s y with
  | error e =>
    rw [ha] at hsteps
    exact hsteps
  | ok s' =>
    rw [ha] at hsteps
    exact ⟨Change.apply_keeps hput hs hy ha, 1, hsteps⟩

/-- The way out of a choice: the saved value is taken from the stack. -/
theorem arrives_restore (hm : Ready m) (hcase : caseName ∈ names) {t : Nat} {saved : Value}
    (hpop : m.code.Has t (.pop caseName) x.finish) {s : Store} (hs : inv s)
    (hg : Exec.Goes host w (place m h t s { st with items := st.items.push saved })) :
    Arrives host m h inv x w st (.of (put s caseName saved)) := by
  have hsteps := @steps_pop σ host m h t x.finish s st hm saved hpop
  rw [hput.agrees s _ _ hs hcase] at hsteps
  cases hs' : put s caseName saved with
  | error e =>
    rw [hs'] at hsteps
    exact hg.fails hsteps
  | ok s' =>
    rw [hs'] at hsteps
    exact ⟨hput.keeps s _ _ s' hs hcase hs', hg.trans ⟨1, hsteps⟩⟩

/-- A choice: the value under test is saved and set, and behind the clauses it is
restored; the clauses leave the choice there, and no loop around it. -/
theorem implements_choice (hm : Ready m) (hcase : caseName ∈ names) {value : Expr} {C : Meaning}
    {q r t : Nat} (hdepth : x.depth < Stack.limit) (hpush : m.code.Has start (.push caseName) q)
    (hset : m.code.Has q (.assign .mov caseName value.tree) r)
    (hpop : m.code.Has t (.pop caseName) x.finish)
    (hC : Implements host m h inv
      { depth := x.depth + 1, finish := t, looped := false, exit := x.exit, leave := t } r C) :
    Implements host m h inv x start (Choice put value C) := by
  intro s st hs hst
  have hsize : Stack.size { st with items := st.items.push (s.fetch caseName) } = x.depth + 1 := by
    rw [← hst]
    simp [Stack.size]
  have hsave := @steps_push σ host m h start q s st hm hpush (by omega)
  have hgo : Exec.Goes host (place m h start s st) _ := ⟨1, hsave⟩
  have hmov := @steps_assign σ host m h q r s
    { st with items := st.items.push (s.fetch caseName) } hm .mov caseName value hset
  cases hv : value.value s with
  | error e =>
    rw [hv] at hmov
    refine ⟨fun o ho => ?_, fun n => .inl ⟨_, .failed hv⟩⟩
    cases ho with
    | enter hv' => rw [hv] at hv'; cases hv'
    | full hv' => rw [hv] at hv'; cases hv'
    | failed hv' =>
      rw [hv] at hv'
      cases hv'
      exact hgo.fails hmov
  | ok v =>
    rw [hv] at hmov
    have hmov' : Steps host (place m h q s _) ((place m h r · _) <$> s.store caseName v) := hmov
    rw [hput.agrees s _ v hs hcase] at hmov'
    cases hs' : put s caseName v with
    | error e =>
      rw [hs'] at hmov'
      refine ⟨fun o ho => ?_, fun n => .inl ⟨_, .full hv hs'⟩⟩
      cases ho with
      | enter hv' hput' => rw [hv] at hv'; cases hv'; rw [hs'] at hput'; cases hput'
      | full hv' hput' =>
        rw [hv] at hv'
        cases hv'
        rw [hs'] at hput'
        cases hput'
        exact hgo.fails hmov'
      | failed hv' => rw [hv] at hv'; cases hv'
    | ok s' =>
      rw [hs'] at hmov'
      have hgo' : Exec.Goes host (place m h start s st) _ := hgo.trans ⟨1, hmov'⟩
      obtain ⟨hout, hlast⟩ := hC s' _ (hput.keeps s _ v s' hs hcase hs') hsize
      refine ⟨fun o ho => ?_, fun n => ?_⟩
      · cases ho with
        | full hv' hput' => rw [hv] at hv'; cases hv'; rw [hs'] at hput'; cases hput'
        | failed hv' => rw [hv] at hv'; cases hv'
        | enter hv' hput' hc =>
          rw [hv] at hv'
          cases hv'
          rw [hs'] at hput'
          cases hput'
          have ha := (hout _ hc).from hgo'
          rename_i o
          cases o with
          | done s₂ => exact arrives_restore hput hm hcase hpop ha.1 ha.2
          | left s₂ => exact arrives_restore hput hm hcase hpop ha.2.1 ha.2.2
          | exited s₂ => exact absurd ha.1 (by simp)
          | failed kind => exact ha
      · rcases hlast n with ⟨o, ho⟩ | hlasts
        · exact .inl ⟨_, .enter hv hs' ho⟩
        · exact .inr (hgo'.lasts hlasts)

end

/-! ## Scripts -/

theorem goes_jump (hm : Ready m) {p dest q : Nat} (hi : Jumps m.code p dest q) (s : Store)
    (st : Stack Value) : Exec.Goes host (place m h p s st) (place m h dest s st) :=
  ⟨1, steps_jump hm hi⟩

section
variable {put : Put} {names : List String}

mutual

theorem Stmt.implements (hput : Faithful put inv names) (hm : Ready m) :
    ∀ {a : Stmt} {x : Exits} {start : Nat}, a.scoped x.looped = true →
    (∀ y ∈ a.variables, y ∈ names) → a.At m.code x.depth start x.finish x.exit x.leave →
    Implements host m h inv x start (a.Ends put)
  | .declare _ none, x, start, _, _, hat => by
    rw [Stmt.Ends]
    exact implements_skip hat
  | .declare y (some change), x, start, _, hv, hat => by
    rw [Stmt.Ends]
    exact implements_change hput hm (hv _ (by simp [Stmt.variables])) hat
  | .assign y change, x, start, _, hv, hat => by
    rw [Stmt.Ends]
    exact implements_change hput hm (hv _ (by simp [Stmt.variables])) hat
  | .branch test body others, x, start, hsc, hv, hat => by
    rw [Stmt.scoped, Bool.and_eq_true] at hsc
    simp only [Stmt.variables, List.mem_append] at hv
    rw [Stmt.At] at hat
    obtain ⟨q, r, n, htest, hbody, hothers⟩ := hat
    obtain ⟨hgoes, himpl⟩ := Branches.implements hput hm hsc.2 (fun y hy => hv y (.inr hy)) hothers
    rw [Stmt.Ends]
    refine implements_either (fun s st => steps_test hm htest) ?_ himpl
    exact (Block.implements hput hm (x := { x with finish := r }) hsc.1 (fun y hy => hv y (.inl hy))
      hbody).then_goes hgoes
  | .loop test body, x, start, hsc, hv, hat => by
    rw [Stmt.scoped] at hsc
    rw [Stmt.variables] at hv
    rw [Stmt.At] at hat
    obtain ⟨q, r, htest, hbody, hback⟩ := hat
    rw [Stmt.Ends]
    exact implements_loop (fun s st => steps_test hm htest) rfl
      (Block.implements hput hm (x := { x with finish := r, looped := true, exit := x.finish })
        hsc hv hbody)
      (goes_jump hm hback)
  | .exit, x, start, hsc, _, hat => by
    rw [Stmt.Ends]
    exact implements_of_outcome fun s st hs _ => ⟨hsc, hs, goes_jump hm hat s st⟩
  | .choose value clauses, x, start, hsc, hv, hat => by
    rw [Stmt.scoped] at hsc
    simp only [Stmt.variables, List.mem_cons] at hv
    rw [Stmt.At] at hat
    obtain ⟨hdepth, q, r, t, hpush, hset, hclauses, hpop⟩ := hat
    rw [Stmt.Ends]
    exact implements_choice hput hm (hv _ (.inl rfl)) hdepth hpush hset hpop
      (Clauses.implements hput hm
        (x := { depth := x.depth + 1, finish := t, looped := false, exit := x.exit, leave := t })
        hsc (fun y hy => hv y (.inr hy)) hclauses)
  | .leave, x, start, _, _, hat => by
    rw [Stmt.At] at hat
    rw [Stmt.Ends]
    exact implements_of_outcome fun s st hs _ => ⟨hat.1, hs, goes_jump hm hat.2 s st⟩

theorem Block.implements (hput : Faithful put inv names) (hm : Ready m) :
    ∀ {b : Block} {x : Exits} {start : Nat}, b.scoped x.looped = true →
    (∀ y ∈ b.variables, y ∈ names) → b.At m.code x.depth start x.finish x.exit x.leave →
    Implements host m h inv x start (b.Ends put)
  | .nil, x, start, _, _, hat => by
    rw [Block.Ends]
    exact implements_skip hat
  | .cons a rest, x, start, hsc, hv, hat => by
    rw [Block.scoped, Bool.and_eq_true] at hsc
    simp only [Block.variables, List.mem_append] at hv
    rw [Block.At] at hat
    obtain ⟨q, ha, hrest⟩ := hat
    rw [Block.Ends]
    exact implements_then
      (Stmt.implements hput hm (x := { x with finish := q }) hsc.1 (fun y hy => hv y (.inl hy)) ha)
      (Block.implements hput hm hsc.2 (fun y hy => hv y (.inr hy)) hrest)

/-- Further branches: the branch before them comes past them, and its failed test
comes to their first one. -/
theorem Branches.implements (hput : Faithful put inv names) (hm : Ready m) :
    ∀ {b : Branches} {x : Exits} {start next : Nat},
    b.scoped x.looped = true → (∀ y ∈ b.variables, y ∈ names) →
    b.At m.code x.depth start next x.finish x.exit x.leave →
    (∀ s st, Exec.Goes host (place m h start s st) (place m h x.finish s st)) ∧
      Implements host m h inv x next (b.Ends put)
  | .nil, x, start, next, _, _, hat => by
    obtain ⟨rfl, hnext⟩ := hat
    rw [Branches.Ends]
    exact ⟨fun s st => .refl _ _, implements_skip hnext.symm⟩
  | .otherwise body, x, start, next, hsc, hv, hat => by
    rw [Branches.scoped] at hsc
    rw [Branches.variables] at hv
    rw [Branches.At] at hat
    rw [Branches.Ends]
    exact ⟨goes_jump hm hat.1, Block.implements hput hm hsc hv hat.2⟩
  | .also test body others, x, start, next, hsc, hv, hat => by
    rw [Branches.scoped, Bool.and_eq_true] at hsc
    simp only [Branches.variables, List.mem_append] at hv
    rw [Branches.At] at hat
    obtain ⟨hjump, q, r, n, htest, hbody, hothers⟩ := hat
    obtain ⟨hgoes, himpl⟩ := Branches.implements hput hm hsc.2 (fun y hy => hv y (.inr hy)) hothers
    rw [Branches.Ends]
    refine ⟨goes_jump hm hjump, implements_either (fun s st => steps_test hm htest) ?_ himpl⟩
    exact (Block.implements hput hm (x := { x with finish := r }) hsc.1 (fun y hy => hv y (.inl hy))
      hbody).then_goes hgoes

theorem Clauses.implements (hput : Faithful put inv names) (hm : Ready m) :
    ∀ {b : Clauses} {x : Exits} {start : Nat},
    b.scoped x.looped = true → (∀ y ∈ b.variables, y ∈ names) →
    b.At m.code x.depth start x.finish x.exit x.leave → Implements host m h inv x start (b.Ends put)
  | .nil, x, start, _, _, hat => by
    rw [Clauses.Ends]
    exact implements_skip hat
  | .case value body rest, x, start, hsc, hv, hat => by
    rw [Clauses.scoped, Bool.and_eq_true] at hsc
    simp only [Clauses.variables, List.mem_append] at hv
    rw [Clauses.At] at hat
    obtain ⟨q, n, hcase, hbody, hrest⟩ := hat
    rw [Clauses.Ends]
    refine implements_then (q := n) ?_
      (Clauses.implements hput hm hsc.2 (fun y hy => hv y (.inr hy)) hrest)
    exact implements_either (fun s st => steps_case hm hcase)
      (Block.implements hput hm (x := { x with finish := n }) hsc.1
        (fun y hy => hv y (.inl hy)) hbody)
      (implements_skip rfl)
  | .default body rest, x, start, hsc, hv, hat => by
    rw [Clauses.scoped, Bool.and_eq_true] at hsc
    simp only [Clauses.variables, List.mem_append] at hv
    rw [Clauses.At] at hat
    obtain ⟨n, hbody, hrest⟩ := hat
    rw [Clauses.Ends]
    exact implements_then
      (Block.implements hput hm (x := { x with finish := n }) hsc.1
        (fun y hy => hv y (.inl hy)) hbody)
      (Clauses.implements hput hm hsc.2 (fun y hy => hv y (.inr hy)) hrest)

end

end

end

end ScriptMachine.Structured
