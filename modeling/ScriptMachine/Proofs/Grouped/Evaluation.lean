/-
  ScriptMachine.Proofs.Grouped.Evaluation

  Running a line of arithmetic with parentheses.  The instructions of a tree leave its
  value in the place of the tree and change its own temporaries only (`Tree.runs`); so
  the line gives its variable the value of the tree and changes nothing else but the
  temporaries (`grouped_line_runs`).
-/

import ScriptMachine.Proofs.Grouped.Compilation
import ScriptMachine.Proofs.Nesting
import ScriptMachine.Proofs.Structured.Literals

namespace ScriptMachine.Grouped

open Compile Structured

/-! ## Values -/

/-- What an operator makes of two integers.  Arithmetic wraps around, a division by zero
gives the left side, and truth is 1 or 0. -/
def onIntegers (a b : Int64) : Operator → Int64
  | .add => a + b
  | .sub => a - b
  | .mul => a * b
  | .div => if b = 0 then a else a / b
  | .mod => if b = 0 then a else a % b
  | .equal => if a = b then 1 else 0
  | .notEqual => if a ≠ b then 1 else 0
  | .greater => if b < a then 1 else 0
  | .less => if a < b then 1 else 0
  | .greaterEqual => if b ≤ a then 1 else 0
  | .lessEqual => if a ≤ b then 1 else 0
  | .and => if a ≠ 0 ∧ b ≠ 0 then 1 else 0
  | .or => if a ≠ 0 ∨ b ≠ 0 then 1 else 0
  | .close => a

theorem apply_integers {op : Operator} (hop : op ≠ .close) (a b : Int64) :
    Value.apply op (.int a) (.int b) = .ok (.int (onIntegers a b op)) := by
  have horder : Value.order (.int a) (.int b) = .ok (some (compare a.toInt b.toInt)) := rfl
  cases op with
  | close => exact absurd rfl hop
  | add | sub | mul | div | mod => rfl
  | equal | notEqual =>
    have hequal : Value.equal (.int a) (.int b) = .ok (a == b) := rfl
    simp [Value.apply, hequal, onIntegers, Value.ofBool, bind, Except.bind, pure, Except.pure]
  | greater | less | greaterEqual | lessEqual =>
    simp only [Value.apply, horder, onIntegers, Value.ofBool, bind, Except.bind, pure, Except.pure,
      Int64.lt_iff_toInt_lt, Int64.le_iff_toInt_le]
    grind [Int.compare_eq_lt, Int.compare_eq_gt]
  | and | or =>
    have hcoerce : (Value.int b).coerce (Value.int a).kind = .ok (.int b) := rfl
    simp only [Value.apply, hcoerce, Value.isTruthy, onIntegers, bne_iff_ne]
    by_cases ha : a = 0 <;> by_cases hb : b = 0 <;> simp [ha, hb, Value.ofBool] <;> rfl

namespace Tree

/-- Value of a tree: its operators applied to the values of their sides. -/
def value (s : Store) : Tree → Except Error Value
  | number d => .ok (.int d.value)
  | var x _ => .ok (s.fetch x.text)
  | node sign l r => do Value.apply sign.1.2 (← l.value s) (← r.value s)

/-- The same over integers, which never fails. -/
def integer (env : String → Int64) : Tree → Int64
  | number d => d.value
  | var x _ => env x.text
  | node sign l r => onIntegers (l.integer env) (r.integer env) sign.1.2

theorem value_eq_integer {s : Store} {env : String → Int64} {t : Tree}
    (h : ∀ y ∈ t.vars, s.fetch y.text = .int (env y.text)) :
    t.value s = .ok (.int (t.integer env)) := by
  induction t with
  | number d => rfl
  | var x _ => exact congrArg Except.ok (h x List.mem_cons_self)
  | node sign l r ihl ihr =>
    obtain ⟨hl, hr⟩ := List.forall_mem_append.1 h
    rw [value, ihl hl, ihr hr]
    exact apply_integers (ne_close sign) _ _

/-- Value of the operand in the place of a tree. -/
def slotValue (s : Store) (n : Nat) : Tree → Value
  | number d => .int d.value
  | var x _ => s.fetch x.text
  | node .. => s.fetch (temporaryName n)

end Tree

section
variable {σ : Type} {host : Host σ} {s : Store} {h : σ}

theorem Tree.eval_operand (t : Tree) (n : Nat) :
    (t.operand n).eval host .run (s, h) = .ok (t.slotValue s n) (s, h) := by
  cases t <;> simp only [operand, Operand.eval] <;> rfl

theorem eval_last {o : Operand} {v : Value} (ho : o.eval host .run (s, h) = .ok v (s, h)) :
    (Expression.last o).eval host .run (s, h) = .ok v (s, h) := by
  simp only [Expression.eval, Expression.chain, bind, EStateM.bind, ho]
  rfl

theorem eval_operation {a b : Operand} {op : Operator} {u v w : Value}
    (ha : a.eval host .run (s, h) = .ok u (s, h)) (hb : b.eval host .run (s, h) = .ok v (s, h))
    (hw : Value.reduce [u, v] [op] = .ok w) :
    (Expression.more a op (.last b)).eval host .run (s, h) = .ok w (s, h) := by
  simp only [Expression.eval, Expression.chain, bind, EStateM.bind, ha, hb]
  show Work.ofExcept (Value.reduce [u, v] [op]) (s, h) = _
  rw [hw]
  rfl

end

/-! ## What stays the same -/

/-- The variables agree but for the temporaries from `lo` up to `hi`. -/
def Agree (lo hi : Nat) (s s' : Store) : Prop :=
  ∀ y, (∀ i, lo ≤ i → i < hi → y ≠ temporaryName i) → s'.get? y = s.get? y

section
variable {lo hi n : Nat} {s s' s'' : Store}

theorem Agree.refl (lo hi : Nat) (s : Store) : Agree lo hi s s :=
  fun _ _ => rfl

theorem Agree.trans (h : Agree lo hi s s') (k : Agree lo hi s' s'') : Agree lo hi s s'' :=
  fun y hy => (k y hy).trans (h y hy)

theorem Agree.mono {lo' hi' : Nat} (h : Agree lo hi s s') (hlo : lo' ≤ lo) (hhi : hi ≤ hi') :
    Agree lo' hi' s s' :=
  fun y hy => h y fun i hi _ => hy i (by omega) (by omega)

theorem agree_store {v : Value} (h : s.store (temporaryName n) v = .ok s') (hlo : lo ≤ n)
    (hhi : n < hi) : Agree lo hi s s' := by
  intro y hy
  rw [Store.get?_store h, if_neg (hy n hlo hhi).symm]

theorem Agree.fetch (h : Agree lo hi s s') (x : Variable) : s'.fetch x.text = s.fetch x.text := by
  rw [Store.fetch, Store.fetch, h x.text fun i _ _ => x.text_ne_temporaryName i]

/-- What stands in the place of a tree does not depend on temporaries opened later. -/
theorem Agree.slotValue (h : Agree lo hi s s') {t : Tree} (hn : n + t.pairs ≤ lo) :
    t.slotValue s' n = t.slotValue s n := by
  cases t with
  | number d => rfl
  | var x _ => exact h.fetch x
  | node sign l r =>
    have hpairs : (Tree.node sign l r).pairs = 1 + l.pairs + r.pairs := rfl
    have hother : ∀ i, lo ≤ i → i < hi → temporaryName n ≠ temporaryName i := by
      intro i hi _ heq
      have := temporaryName_injective heq
      omega
    simp only [Tree.slotValue, Store.fetch, h _ hother]

end

/-! ## Instructions of a tree -/

section
variable {σ : Type} (host : Host σ) (h : σ) {b : Blocks} {names : List String}
  {env : String → Int64}

/-- The machine at another position, with other variables. -/
def moved (m : Machine) (p : Nat) (s : Store) : Machine :=
  { m with position := p, store := s }

/-- A value is stored as long as the variables fit the memory. -/
theorem exists_store {s : Store} (hs : Fits names s) (v : Value) {name : String}
    (hname : name ∈ names) : ∃ s', s.store name v = .ok s' ∧ Fits names s' := by
  have hput : s.store name v = .ok ⟨s.vars.insert name v⟩ :=
    (faithful_unlimited names).agrees s name v hs hname
  exact ⟨_, hput, (faithful_unlimited names).keeps s name v _ hs hname rfl⟩

/-- The instructions of a tree leave its value in its place.  By induction on the tree:
the value of the left side waits in its temporary, which the right side does not
change. -/
theorem Tree.runs (t : Tree) (n : Nat) {m : Machine}
    (hcode : m.code.HoldsPlan b m.position (Plan.ofInstructions (t.code n)))
    (hlegible : Plan.Legible (Plan.ofInstructions (t.code n))) (hmode : m.mode = .run)
    (hrunning : m.running = true) (hints : ∀ y ∈ t.vars, m.store.fetch y.text = .int (env y.text))
    (hfits : Fits names m.store)
    (hnames : ∀ i, n ≤ i → i < n + t.pairs → temporaryName i ∈ names) :
    ∃ s, Exec.steps host t.pairs (m, h) =
        .ok false (moved m (m.position + Plan.size (Plan.ofInstructions (t.code n))) s, h) ∧
      Fits names s ∧ Agree n (n + t.pairs) m.store s ∧
      t.slotValue s n = .int (t.integer env) := by
  induction t generalizing n m with
  | number d => exact ⟨m.store, rfl, hfits, .refl _ _ _, rfl⟩
  | var x _ => exact ⟨m.store, rfl, hfits, .refl _ _ _, hints x List.mem_cons_self⟩
  | node sign l r ihl ihr =>
    have hpairs : (node sign l r).pairs = 1 + l.pairs + r.pairs := rfl
    rw [code, ofInstructions_append, ofInstructions_append] at hcode hlegible ⊢
    rw [hpairs] at hnames ⊢
    obtain ⟨hintsl, hintsr⟩ := List.forall_mem_append.1 hints
    obtain ⟨hl, hcode'⟩ := Code.holdsPlan_append_iff.1 hcode
    obtain ⟨hr, hop⟩ := Code.holdsPlan_append_iff.1 hcode'
    obtain ⟨hlegiblel, hlegible'⟩ := List.forall_mem_append.1 hlegible
    obtain ⟨hlegibler, hlegibleop⟩ := List.forall_mem_append.1 hlegible'
    -- the left side
    obtain ⟨s₁, hsteps₁, hfits₁, hagree₁, hslot₁⟩ := ihl (n + 1) hl hlegiblel hmode
      hrunning hintsl hfits fun i _ _ => hnames i (by omega) (by omega)
    -- the right side, which finds its variables as they were
    have hints₁ : ∀ y ∈ r.vars, s₁.fetch y.text = .int (env y.text) := by
      intro y hy
      rw [hagree₁.fetch]
      exact hintsr y hy
    obtain ⟨s₂, hsteps₂, hfits₂, hagree₂, hslot₂⟩ := @ihr (n + 1 + l.pairs)
      (moved m (m.position + Plan.size (Plan.ofInstructions (l.code (n + 1)))) s₁) hr hlegibler
      hmode hrunning hints₁ hfits₁ fun i _ _ => hnames i (by omega) (by omega)
    have hslot : l.slotValue s₂ (n + 1) = .int (l.integer env) :=
      (hagree₂.slotValue (Nat.le_refl _)).trans hslot₁
    -- the operation itself
    have hclose := ne_close sign
    have heval : (Expression.more (l.operand (n + 1)) sign.1.2
        (.last (r.operand (n + 1 + l.pairs)))).eval host .run (s₂, h) =
          .ok (.int ((node sign l r).integer env)) (s₂, h) := by
      refine eval_operation (l.eval_operand (n + 1)) (r.eval_operand (n + 1 + l.pairs)) ?_
      rw [hslot, hslot₂, Value.reduce_pair_int hclose]
      exact apply_integers hclose _ _
    obtain ⟨s₃, hs₃, hfits₃⟩ := exists_store hfits₂ (.int ((node sign l r).integer env))
      (hnames n (by omega) (by omega))
    have hstep := Exec.steps_mov (m := moved m
      (m.position + Plan.size (Plan.ofInstructions (l.code (n + 1))) +
        Plan.size (Plan.ofInstructions (r.code (n + 1 + l.pairs)))) s₂)
      (hop.has (hlegibleop _ List.mem_cons_self)) hmode hrunning heval hs₃
    have hpairs' : 1 + l.pairs + r.pairs = l.pairs + (r.pairs + 1) := by omega
    have hleft : Agree n (n + (1 + l.pairs + r.pairs)) m.store s₁ :=
      hagree₁.mono (by omega) (by omega)
    have hright : Agree n (n + (1 + l.pairs + r.pairs)) s₁ s₂ :=
      hagree₂.mono (by omega) (by omega)
    refine ⟨s₃, ?_, hfits₃, ?_, ?_⟩
    · rw [hpairs', Exec.steps_add hsteps₁, Exec.steps_add hsteps₂, Plan.size_append,
        Plan.size_append, ← Nat.add_assoc, ← Nat.add_assoc]
      exact hstep
    · exact (hleft.trans hright).trans (agree_store hs₃ (Nat.le_refl n) (by omega))
    · rw [slotValue, Store.fetch, Store.get?_store hs₃, if_pos rfl]
      rfl

/-- The instructions of a line leave the value of the tree in the variable. -/
theorem lineCode_runs (x : Variable) (t : Tree) {m : Machine}
    (hcode : m.code.HoldsPlan b m.position (Plan.ofInstructions (lineCode x t)))
    (hlegible : Plan.Legible (Plan.ofInstructions (lineCode x t))) (hmode : m.mode = .run)
    (hrunning : m.running = true) (hints : ∀ y ∈ t.vars, m.store.fetch y.text = .int (env y.text))
    (hfits : Fits names m.store) (hnames : ∀ i < t.pairs, temporaryName i ∈ names) :
    ∃ s, Exec.steps host (t.pairs + 1) (m, h) =
        .ok false (moved m (m.position + Plan.size (Plan.ofInstructions (lineCode x t))) s, h) ∧
      s.get? x.text = some (.int (t.integer env)) ∧
      ∀ y, y ≠ x.text → (∀ i < t.pairs, y ≠ temporaryName i) → s.get? y = m.store.get? y := by
  rw [lineCode, ofInstructions_append] at hcode hlegible ⊢
  obtain ⟨htree, hlast⟩ := Code.holdsPlan_append_iff.1 hcode
  obtain ⟨hlegible', hlegiblelast⟩ := List.forall_mem_append.1 hlegible
  obtain ⟨s₁, hsteps, hfits₁, hagree, hslot⟩ := t.runs host h 0 htree hlegible' hmode
    hrunning hints hfits fun i _ hi => hnames i (by omega)
  have heval : (Expression.last (t.operand 0)).eval host .run (s₁, h) =
      .ok (.int (t.integer env)) (s₁, h) := by
    rw [← hslot]
    exact eval_last (t.eval_operand 0)
  -- the variable itself need not be among the names: it is stored last
  obtain ⟨s, hs⟩ : ∃ s, s₁.store x.text (.int (t.integer env)) = .ok s := by
    have hle := hfits₁.size_le
    exact ⟨_, if_neg (by omega)⟩
  have hstep := Exec.steps_mov
    (m := moved m (m.position + Plan.size (Plan.ofInstructions (t.code 0))) s₁)
    (hlast.has (hlegiblelast _ List.mem_cons_self)) hmode hrunning heval hs
  refine ⟨s, ?_, ?_, fun y hy hother => ?_⟩
  · rw [Exec.steps_add hsteps, Plan.size_append, ← Nat.add_assoc]
    exact hstep
  · rw [Store.get?_store hs, if_pos rfl]
  · rw [Store.get?_store hs, if_neg hy.symm]
    exact hagree y fun i _ hi => hother i (by omega)

end

/-! ## Lines of a finished script -/

section
variable {c d e : Compiler} {texts : List (List Char)}

theorem takes_unique (h : Takes c texts d) (k : Takes c texts e) : d = e :=
  (EStateM.Result.ok.inj ((forM_line_of_takes h).symm.trans (forM_line_of_takes k))).2

theorem exists_writes_of_takes (h : Takes c texts d) : ∃ ps, c.Writes ps d := by
  induction h with
  | nil c => exact ⟨[], .refl c⟩
  | cons hline _ ih =>
    have hgrows := line_grows (D := fun _ _ => True) (N := fun _ => True) (fun _ _ _ => trivial)
      trivial (fun _ _ _ _ _ => trivial) hline
    obtain ⟨_, ps, hps, _⟩ := hgrows fun _ _ _ _ => trivial
    obtain ⟨qs, hqs⟩ := ih
    exact ⟨ps ++ qs, hps.trans hqs⟩

theorem exists_writes_of_feeds {feeds : List Feed} (h : feeds.forM Feed.load c = .ok () d) :
    ∃ ps, c.Writes ps d := by
  have hgrows : c.Grows (fun _ _ => True) (fun _ => True) d :=
    rel_of_forM (fun feed e _ e' hload => whole_load feed e () e' hload) h
  obtain ⟨_, ps, hps, _⟩ := hgrows fun _ _ _ _ => trivial
  exact ⟨ps, hps⟩

/-- What a line writes stands in the finished program where the line was compiled, whatever
else the compile run is fed with. -/
theorem holdsPlan_of_feeds {config : Config} {feeds feeds' : List Feed} {file source : String}
    {before after : List (List Char)} {text : List Char} {c₀ f f' : Compiler} {p : Program}
    {ps : Plan} (hfeeds : feeds.forM Feed.load (Compiler.ofConfig config) = .ok () c₀)
    (hlines : Source.lines source = before ++ text :: after)
    (hbefore : Takes (loading c₀ file) before c) (hline : line text c = .ok () d)
    (hwrites : c.Writes ps d)
    (hall : (feeds ++ .script file source :: feeds').forM Feed.load (Compiler.ofConfig config) =
      .ok () f)
    (hfinish : finish f = .ok p f') : ∃ b, p.code.HoldsPlan b c.program.position ps := by
  obtain ⟨c₁, hfirst, hrest⟩ := forM_append_eq_ok_iff.1 hall
  obtain rfl := (EStateM.Result.ok.inj (hfirst.symm.trans hfeeds)).2
  obtain ⟨_, e, hscript, hothers⟩ := bind_eq_ok_iff.1 hrest
  have htakes := script_eq_ok_iff.1 hscript
  rw [hlines] at htakes
  obtain ⟨c₂, hfront, hback⟩ := takes_append_iff.1 htakes
  obtain rfl := takes_unique hfront hbefore
  obtain ⟨d₁, hline₁, hafter⟩ := takes_cons_iff.1 hback
  obtain rfl := (EStateM.Result.ok.inj (hline₁.symm.trans hline)).2
  -- the plan: what is written before the line, by the line and behind it
  obtain ⟨ps₁, h₁⟩ := exists_writes_of_feeds hfeeds
  obtain ⟨ps₂, h₂⟩ := exists_writes_of_takes hbefore
  obtain ⟨ps₃, h₃⟩ := exists_writes_of_takes hafter
  obtain ⟨ps₄, h₄⟩ := exists_writes_of_feeds hothers
  have hloading : (Compiler.ofConfig config).Writes ps₁ (loading c₁ file) := h₁.same rfl rfl
  have hfront := hloading.trans h₂
  have hplan := hfront.trans (hwrites.trans (h₃.trans h₄))
  obtain ⟨hbytes, _⟩ := finish_plan hplan.code hplan.fixups hfinish
  have hholds : p.code.HoldsPlan f.blocks 0
      (ps₁ ++ ps₂ ++ (ps ++ (ps₃ ++ ps₄)) ++ [.plain .stop]) :=
    @Code.holds_of_toList p.code [] _ [] (by rw [List.nil_append, List.append_nil]; exact hbytes)
  have hmiddle := (Code.holdsPlan_append_iff.1 (Code.holdsPlan_append_iff.1 hholds).1).2
  have hposition : c₂.program.position = 0 + Plan.size (ps₁ ++ ps₂) := hfront.position
  rw [hposition]
  exact ⟨f.blocks, (Code.holdsPlan_append_iff.1 hmiddle).1⟩

theorem holdsPlan_of_compile {file source : String} {p : Program} {before after : List (List Char)}
    {text : List Char} {ps : Plan} (hp : compile file source = .ok p)
    (hlines : Source.lines source = before ++ text :: after)
    (hbefore : Takes (fresh file) before c) (hline : line text c = .ok () d)
    (hwrites : c.Writes ps d) : ∃ b, p.code.HoldsPlan b c.program.position ps := by
  obtain ⟨e, e', htakes, hfinish⟩ := compile_eq_ok_iff.1 hp
  have hscript : [Feed.script file source].forM Feed.load (Compiler.ofConfig {}) = .ok () e :=
    forM_singleton_eq_ok_iff.2 (script_eq_ok_iff.2 htakes)
  exact @holdsPlan_of_feeds c d {} [] [] file source before after text _ e e' p ps rfl hlines hbefore
    hline hwrites hscript hfinish

end

/-- A script whose lines write no jumps and leave nothing open is compiled. -/
theorem exists_compile {file source : String} {c : Compiler} {is : List Instruction}
    (h : Takes (fresh file) (Source.lines source) c)
    (hwrites : (fresh file).Writes (Plan.ofInstructions is) c)
    (hopen : c.structures.top? = none) :
    ∃ p, compile file source = .ok p ∧ 0 < p.code.size := by
  have hlabels : ∀ l ∈ Plan.labels (Plan.ofInstructions is), (c.blocks.address? l).isSome := by
    intro l hl
    rw [← Plan.labels_fixups 0, Plan.fixups_ofInstructions] at hl
    cases hl
  have hcode : c.program.code.toList = Plan.bytes Label.placeholder (Plan.ofInstructions is) :=
    hwrites.code
  obtain ⟨p, c', hfinish⟩ := exists_finish hcode hwrites.fixups hopen hlabels
  have hlen : p.code.size = Plan.size (Plan.ofInstructions is) + 2 := by
    have hbytes := congrArg List.length (finish_plan hcode hwrites.fixups hfinish).1
    rw [Plan.length_bytes, Plan.size_append] at hbytes
    exact hbytes
  exact ⟨p, compile_eq_ok_iff.2 ⟨c, c', h, hfinish⟩, by omega⟩

/-! ## Declared names -/

/-- The name of a declaration as a variable. -/
def Variable.ofName (x : Name) : Variable where
  chars := x.chars
  nonempty := x.isWord.1
  flat := flat_of_isWord x.isWord
  permanent := by
    intro c hc heq
    have hletter := x.letter
    rw [Option.some.inj hc, heq] at hletter
    revert hletter
    decide

theorem leading_ofName (x : Name) : (Variable.ofName x).Leading :=
  fun c hc => contains_of_isOrdinary (x.isWord.2 c hc) (by decide)

theorem readable_ofName (x : Name) : (Variable.ofName x).Readable where
  whole := fun c hc => contains_of_isOrdinary (x.isWord.2 c hc) (by decide)
  notDigits := x.not_isDigits
  unmarked := fun c hc =>
    contains_of_isOrdinary (x.isWord.2 c (List.mem_of_mem_head? hc)) (by decide)

theorem takes_declared (file : String) (x : Name) :
    Takes (fresh file) [headed .var x.chars] (declared (fresh file) x) :=
  takes_singleton_iff.2 ((line_declare_eq_ok_iff (usual_fresh file) x).2 ⟨rfl, rfl⟩)

theorem writes_declared (file : String) (x : Name) :
    (fresh file).Writes [] (declared (fresh file) x) :=
  .none rfl rfl

theorem get?_declared (file : String) (x : Name) :
    (declared (fresh file) x).symbols.get? (Variable.ofName x).text = some .var :=
  (Symbols.get?_insert ..).trans (if_pos rfl)

theorem free_declared (file : String) (x : Name) (n : Nat) :
    Free (declared (fresh file) x).symbols (temporaryName n) := by
  refine .inl ((Symbols.get?_insert ..).trans ?_)
  have hother : x.text ≠ temporaryName n := (Variable.ofName x).text_ne_temporaryName n
  rw [if_neg hother]
  cases hs : Symbols.initial.get? (temporaryName n) with
  | none => exact hs
  | some s =>
    obtain ⟨w, hw, _⟩ := Symbols.get?_initial_eq_some hs
    exact absurd hw.symm (temporaryName_ne_spelling n w)

/-! ## Parentheses group -/

/-- The memory of the machine has room for the temporaries of a line. -/
def Roomy (s : Store) (n : Nat) : Prop :=
  (s.vars.keys ++ (List.range n).map temporaryName).dedup.length ≤ 65535

theorem Roomy.fits {s : Store} {n : Nat} (h : Roomy s n) :
    Fits (s.vars.keys ++ (List.range n).map temporaryName) s := by
  refine ⟨fun x hx => List.mem_append_left _ ?_, h⟩
  exact Std.TreeMap.mem_keys.2 hx

theorem Roomy.mono {s : Store} {n n' : Nat} (h : Roomy s n) (hle : n' ≤ n) : Roomy s n' := by
  refine Nat.le_trans ((List.nodup_dedup _).subperm fun y hy => ?_).length_le h
  rw [List.mem_dedup, List.mem_append] at hy ⊢
  refine hy.imp_right fun hy => ?_
  obtain ⟨k, hk, rfl⟩ := List.mem_map.1 hy
  have := List.mem_range.1 hk
  exact List.mem_map_of_mem (List.mem_range.2 (by omega))

theorem roomy_of_le {s : Store} {n : Nat} (h : s.size + n ≤ 65535) : Roomy s n := by
  have hdedup :=
    (List.dedup_sublist (s.vars.keys ++ (List.range n).map temporaryName)).length_le
  rw [List.length_append, List.length_map, List.length_range, Std.TreeMap.length_keys] at hdedup
  exact Nat.le_trans hdedup h

/-- Parentheses group.  Wherever in a script the line stands that assigns a tree of
operators over numbers and variables, with each operation in parentheses, it is compiled;
and where its variables hold integers, running it gives the variable the value of the tree
and changes nothing else but the temporaries of the line.  The names must be declared, must
be read as a whole where they stand and must fit the stream; the temporaries must not stand
for anything else than variables; and the memory must have room for them. -/
theorem grouped_line_runs (x : Variable) (t : Tree) {file source : String}
    {before after : List (List Char)} {c : Compiler}
    (hlines : Source.lines source = before ++ assignmentLine x t :: after)
    (hbefore : Takes (fresh file) before c) (hlead : x.Leading) (hx : x.Known c.symbols)
    (hvars : ∀ y ∈ t.vars, y.Known c.symbols)
    (hfree : ∀ i < t.pairs, Free c.symbols (temporaryName i)) (hpairs : t.pairs ≤ 65535) :
    ∃ c', line (assignmentLine x t) c = .ok () c' ∧ ∀ p, compile file source = .ok p →
      ∀ {σ : Type} (host : Host σ) (m : Machine) (h : σ), m.code = p.code →
        m.position = c.program.position → m.mode = .run → m.running = true →
        ∀ env : String → Int64, (∀ y ∈ t.vars, m.store.fetch y.text = .int (env y.text)) →
        Roomy m.store t.pairs →
          t.value m.store = .ok (.int (t.integer env)) ∧
          ∃ s, Exec.steps host (t.pairs + 1) (m, h) =
              .ok false (moved m c'.program.position s, h) ∧
            s.get? x.text = some (.int (t.integer env)) ∧
            ∀ y, y ≠ x.text → (∀ i < t.pairs, y ≠ temporaryName i) →
              s.get? y = m.store.get? y := by
  have hstem : c.config.stem = "$" := by
    rw [config_of_takes hbefore]
    rfl
  obtain ⟨c', hline, _, hwrites⟩ := line_compiled hstem hlead hx hvars hfree (by omega)
  refine ⟨c', hline, ?_⟩
  intro p hp σ host m h hcode hposition hmode hrunning env hints hroomy
  obtain ⟨b, hholds⟩ := holdsPlan_of_compile hp hlines hbefore hline hwrites
  rw [← hcode, ← hposition] at hholds
  have hnames : ∀ i < t.pairs, temporaryName i ∈
      m.store.vars.keys ++ (List.range t.pairs).map temporaryName := fun i hi =>
    List.mem_append_right _ (List.mem_map_of_mem (List.mem_range.2 hi))
  rw [hwrites.position, ← hposition]
  exact ⟨Tree.value_eq_integer hints, lineCode_runs host h x t hholds hwrites.legible hmode hrunning
    hints hroomy.fits hnames⟩

/-- The tree `((x + 2) * 3)`. -/
def nestedGroups : Tree :=
  .node ⟨(['*'], .mul), by decide⟩
    (.node plus (.var (.ofName nameX) (readable_ofName nameX))
      (.number ⟨['2'], by decide, by decide⟩))
    (.number ⟨['3'], by decide, by decide⟩)

/-- Groups inside each other, over a variable that was not assigned yet. -/
theorem nested_groups_run :
    ∃ p, compile "" "var x\nx = ((x + 2) * 3)\n" = .ok p ∧
      ∀ {σ : Type} (host : Host σ) (m : Machine) (h : σ),
        Machine.start p.code 0 false m = .ok () (started m p.code) ∧
        ∃ q s, Exec.steps host 3 (started m p.code, h) =
            .ok false (moved (started m p.code) q s, h) ∧
          s.get? "x" = some (.int 6) ∧
          ∀ y, y ≠ "x" → y ≠ "$0" → y ≠ "$1" → s.get? y = Store.initial.get? y := by
  have hlines : Source.lines "var x\nx = ((x + 2) * 3)\n" =
      [headed .var nameX.chars] ++ assignmentLine (.ofName nameX) nestedGroups :: [] := by
    decide +kernel
  have htakes := takes_declared "" nameX
  have hknown : (Variable.ofName nameX).Known (declared (fresh "") nameX).symbols :=
    ⟨get?_declared "" nameX, by decide⟩
  have hvars : ∀ y ∈ nestedGroups.vars, y.Known (declared (fresh "") nameX).symbols :=
    List.forall_mem_singleton.2 hknown
  have hfree : ∀ i < nestedGroups.pairs,
      Free (declared (fresh "") nameX).symbols (temporaryName i) :=
    fun i _ => free_declared "" nameX i
  obtain ⟨c', hline, hruns⟩ := grouped_line_runs (.ofName nameX) nestedGroups hlines htakes
    (leading_ofName nameX) hknown hvars hfree (by decide)
  obtain ⟨d, hline', hnotes, hwrites⟩ := line_compiled rfl (leading_ofName nameX) hknown hvars hfree
    (by decide)
  obtain rfl := (EStateM.Result.ok.inj (hline'.symm.trans hline)).2
  have hall : Takes (fresh "") (Source.lines "var x\nx = ((x + 2) * 3)\n") d := by
    rw [hlines]
    exact takes_append_iff.2 ⟨_, htakes, takes_singleton_iff.2 hline⟩
  have hopen : d.structures.top? = none := by
    rw [hnotes.structures]
    rfl
  obtain ⟨p, hp, hsize⟩ := exists_compile hall ((writes_declared "" nameX).trans hwrites) hopen
  refine ⟨p, hp, fun host m h => ⟨start_eq_ok hsize, ?_⟩⟩
  have hints : ∀ y ∈ nestedGroups.vars, Store.initial.fetch y.text = .int 0 :=
    List.forall_mem_singleton.2 rfl
  have hroomy : Roomy Store.initial nestedGroups.pairs := roomy_of_le (by decide)
  obtain ⟨_, s, hsteps, hx, hframe⟩ := hruns p hp host (started m p.code) h rfl rfl rfl rfl
    (fun _ => 0) hints hroomy
  refine ⟨_, s, hsteps, hx, fun y hy h₀ h₁ => hframe y hy fun i hi => ?_⟩
  have hpairs : nestedGroups.pairs = 2 := rfl
  obtain rfl | rfl : i = 0 ∨ i = 1 := by omega
  · exact h₀
  · exact h₁

/-- The tree `(2 + 3)`. -/
def twoPlusThree : Tree :=
  .node plus (.number ⟨['2'], by decide, by decide⟩) (.number ⟨['3'], by decide, by decide⟩)

/-- A declared variable is not enough: its name may be too long for the stream, the name of
the temporary may be that of a constant, and the name of the variable may have a sign in
it. -/
theorem unusable_names_not_compiled :
    (∃ c, Takes (fresh "") [headed .var longName.chars] c ∧
      c.symbols.get? (Variable.ofName longName).text = some .var ∧
      ∀ c', line (assignmentLine (.ofName longName) twoPlusThree) c ≠ .ok () c') ∧
    (∀ p, compile "" "define $0 5\nvar x\nx = (2 + 3)\n" ≠ .ok p) ∧
    ∀ p, compile "" "var a+b\na+b = (2 + 3)\n" ≠ .ok p := by
  refine ⟨⟨_, takes_declared "" longName, get?_declared "" longName, fun c' h => ?_⟩,
    fun p hp => ?_, fun p hp => ?_⟩
  · obtain ⟨d, _, _, _, hline⟩ := line_compiled_iff (t := twoPlusThree) rfl (leading_ofName longName)
      (get?_declared "" longName) (fun y hy => nomatch hy)
      (fun i _ => free_declared "" longName i) (by decide)
    have hfits : Item.textFits longName.text = true := ((hline c').1 h).1
    rw [not_textFits_longName] at hfits
    cases hfits
  · have hfails : (compile "" "define $0 5\nvar x\nx = (2 + 3)\n").isOk = false := by
      decide +kernel
    rw [hp] at hfails
    cases hfails
  · have hfails : (compile "" "var a+b\na+b = (2 + 3)\n").isOk = false := by
      decide +kernel
    rw [hp] at hfails
    cases hfails

end ScriptMachine.Grouped
