/-
  ScriptMachine.Proofs.Structured.Correctness

  Accepted scripts run as they mean.  Whatever a structured script does to its
  variables when it is run from the start, its meaning says, and the other way
  round (`Block.runs`); the two ways of storing a variable, in the memory of the
  machine and in one of unlimited size, agree as long as the names fit the memory
  (`faithful_unlimited`).
-/

import Mathlib.Data.List.Dedup
import Mathlib.Data.List.Perm.Subperm
import ScriptMachine.Proofs.Feeding
import ScriptMachine.Proofs.Structured.Compilation
import ScriptMachine.Proofs.Structured.Simulation

namespace ScriptMachine

/-! ## Fresh compile runs -/

theorem Symbols.get?_initial_spelling (w : Word) :
    Symbols.initial.get? w.spelling = some (.command w) := by
  cases hs : Symbols.initial.get? w.spelling with
  | some s =>
    obtain ⟨v, hv, rfl⟩ := get?_initial_eq_some hs
    rw [Word.spelling_injective hv]
  | none =>
    have hfold := Symbols.get?_foldl_insert Word.all ⟨∅⟩ w.spelling
    rw [← Symbols.initial, hs] at hfold
    have hnone := (Option.or_eq_none_iff.1 hfold.symm).1
    rw [Option.map_eq_none_iff, List.find?_eq_none] at hnone
    exact absurd (hnone w (List.mem_reverse.2 w.mem_all)) (by simp)

namespace Structured

open Compile

theorem usual_fresh (file : String) : Usual (fresh file) where
  config := rfl
  words := Symbols.get?_initial_spelling
  names := by
    intro x s hs
    obtain ⟨w, hw, _⟩ := Symbols.get?_initial_eq_some hs
    exact absurd hw.symm (x.text_ne_spelling w)

theorem consistent_fresh (file : String) : (fresh file).blocks.Consistent :=
  Blocks.consistent_empty _

/-! ## Finished scripts -/

/-- The lines of a fresh run record no label behind what they wrote. -/
theorem address_le_of_takes {file : String} {b : Block} {c : Compiler}
    (h : Takes (fresh file) b.lines c) {l : Label} {a : Nat} (hl : c.blocks.address? l = some a) :
    a ≤ c.program.position := by
  have hscript : script file b.source (Compiler.ofConfig {}) = .ok () c := by
    rw [script_eq_ok_iff, b.lines_source]
    exact h
  obtain ⟨ps, hcode, _, _, hcut⟩ := ofConfig_grows (whole_script file b.source _ _ _ hscript)
  obtain ⟨qs, rs, rfl, rfl⟩ := hcut l a hl
  have hlen : c.program.position = Plan.size (qs ++ rs) := by
    have := congrArg List.length hcode
    rw [Plan.length_bytes] at this
    exact this
  rw [hlen, Plan.size_append]
  omega

/-- A finished script stands in its stream from the start on, with a `stop` behind
it. -/
theorem Block.at_of_compile {b : Block} {file : String} {p : Program}
    (h : compile file b.source = .ok p) :
    ∃ finish, b.At p.code 0 0 finish 0 0 ∧ p.code.Has finish .stop (finish + 2) ∧
      p.code.size = finish + 2 := by
  obtain ⟨c, c', htakes, hfinish⟩ := compile_eq_ok_iff.1 h
  rw [b.lines_source] at htakes
  obtain ⟨ps, hcont, _, hplaces⟩ := Block.compiled (usual_fresh file) (consistent_fresh file) htakes
  have hcode : c.program.code.toList = ps.bytes Label.placeholder := hcont.writes.code
  obtain ⟨hbytes, _⟩ := finish_plan hcode hcont.writes.fixups hfinish
  have hsize : c.program.position = Plan.size ps := by
    have := congrArg List.length hcode
    rw [Plan.length_bytes] at this
    exact this
  have hholds : p.code.HoldsPlan c.blocks 0 (ps ++ [.plain .stop]) :=
    @Code.holds_of_toList p.code [] _ [] (by rw [List.nil_append, List.append_nil]; exact hbytes)
  obtain ⟨hplan, hstop⟩ := Code.holdsPlan_append_iff.1 hholds
  rw [Nat.zero_add, ← hsize] at hstop
  have hend : p.code.Has c.program.position .stop (c.program.position + 2) :=
    hstop.has (x := .plain .stop) ⟨trivial, rfl⟩
  have hinside : c.blocks.Inside p.code := by
    intro l a hl
    have hle := address_le_of_takes htakes hl
    have hlt := hend.holds.le_size (by decide)
    have hlen : (Instruction.stop).bytes.length = 2 := by decide
    omega
  have hleads : Leads (fresh file) c.blocks 0 0 :=
    ⟨fun l hl => (nomatch hl), fun l hl => (nomatch hl)⟩
  have hstands := (hplaces c.blocks 0 0 (.refl _) hleads).stands p.code hinside hplan
  have hlen : p.code.size = c.program.position + 2 := by
    have := congrArg List.length hbytes
    rw [Plan.length_bytes, Plan.size_append, ← hsize] at this
    exact this
  exact ⟨c.program.position, hstands, hend, hlen⟩

/-! ## Runs -/

/-- A machine prepared to run a stream from its first byte, with its jumps on. -/
def started (m : Machine) (k : Code) : Machine :=
  { m with
    code := k
    position := 0
    store := .initial
    stack := m.stack.clear
    mode := .run
    gotoLock := false
    running := true
    interrupted := false }

/-- Whether jumps are off makes no other difference to a machine that is started. -/
theorem start_eq_ok_of_lock {m : Machine} {k : Code} (hk : 0 < k.size) (lock : Bool) :
    Machine.start k 0 lock m = .ok () { started m k with gotoLock := lock } := by
  have hseek : k.seek 0 = .ok 0 := if_pos hk
  show (Machine.load k 0 >>= fun _ => _) m = _
  simp only [bind, EStateM.bind, Machine.load, hseek]
  rfl

theorem start_eq_ok {m : Machine} {k : Code} (hk : 0 < k.size) :
    Machine.start k 0 false m = .ok () (started m k) :=
  start_eq_ok_of_lock hk false

/-- The run from a state with the initial variables ends as the meaning says, and
only as it says. -/
structure RunsAs {σ : Type} (host : Host σ) (w : Machine × σ) (R : Meaning) : Prop where
  halts : ∀ s, Exec.Halts host w s ↔ R .initial (.done s)
  fails : ∀ kind, Exec.Fails host w kind ↔ R .initial (.failed kind)

section
variable {σ : Type} {host : Host σ} {m : Machine} {h : σ} {inv : Store → Prop}

/-- Instructions that implement a meaning outside of all loops and choices, with a
`stop` behind them. -/
theorem runsAs_of_implements {R : Meaning} {finish : Nat} (hm : Ready m) (hinv : inv .initial)
    (hR : Implements host m h inv
      { depth := 0, finish := finish, looped := false, exit := 0, leave := 0 } 0 R)
    (hstop : m.code.Has finish .stop (finish + 2)) {st : Stack Value} (hst : st.size = 0) :
    RunsAs host (place m h 0 .initial st) R := by
  obtain ⟨hout, hlast⟩ := hR .initial st hinv hst
  have hdone : ∀ s, R .initial (.done s) → Exec.Halts host (place m h 0 .initial st) s := by
    intro s hs
    obtain ⟨_, hg⟩ := hout _ hs
    exact hg.halts (halts_stop hm hstop)
  have hfailed : ∀ kind, R .initial (.failed kind) →
      Exec.Fails host (place m h 0 .initial st) kind := by
    intro kind hs
    exact hout _ hs
  -- a run that ends does not last, so the script has an outcome, and it is this end
  have hends : (∃ n, ¬ Exec.Lasts host (place m h 0 .initial st) n) →
      (∃ s, R .initial (.done s)) ∨ ∃ kind, R .initial (.failed kind) := by
    rintro ⟨n, hn⟩
    obtain ⟨o, ho⟩ := (hlast n).resolve_right hn
    cases o with
    | done s => exact .inl ⟨s, ho⟩
    | failed kind => exact .inr ⟨kind, ho⟩
    | exited s => exact absurd (hout _ ho).1 (by simp)
    | left s => exact absurd (hout _ ho).1 (by simp)
  refine ⟨fun s => ⟨fun hs => ?_, hdone s⟩, fun kind => ⟨fun hs => ?_, hfailed kind⟩⟩
  · rcases hends hs.not_lasts with ⟨t, ht⟩ | ⟨kind, hk⟩
    · rw [hs.unique (hdone t ht)]
      exact ht
    · exact absurd (hfailed kind hk) hs.not_fails
  · rcases hends hs.not_lasts with ⟨t, ht⟩ | ⟨kind', hk⟩
    · exact absurd hs (hdone t ht).not_fails
    · rw [hs.unique (hfailed kind' hk)]
      exact hk

/-- A script that is accepted, and whose exits stay inside their choices, runs as
it means. -/
theorem Block.runs {b : Block} {file : String} {p : Program} (hp : compile file b.source = .ok p)
    (hsize : p.code.size < 2 ^ 63) (hscoped : b.scoped false = true) {put : Put}
    {names : List String} (hput : Faithful put inv names) (hnames : ∀ y ∈ b.variables, y ∈ names)
    (hinv : inv .initial) (host : Host σ) (m : Machine) (h : σ) :
    Machine.start p.code 0 false m = .ok () (started m p.code) ∧
      RunsAs host (started m p.code, h) (b.Ends put) := by
  obtain ⟨finish, hat, hstop, hlen⟩ := Block.at_of_compile hp
  have hpos : 0 < p.code.size := by omega
  have hm : Ready (started m p.code) := ⟨rfl, rfl, rfl, hsize⟩
  have himpl : Implements host (started m p.code) h inv
      { depth := 0, finish := finish, looped := false, exit := 0, leave := 0 } 0 (b.Ends put) :=
    Block.implements hput hm hscoped hnames hat
  exact ⟨start_eq_ok hpos, runsAs_of_implements hm hinv himpl hstop rfl⟩

end

/-! ## Ways of storing -/

/-- Storing in the memory of the machine. -/
theorem faithful_store (names : List String) : Faithful Store.store (fun _ => True) names where
  agrees := fun _ _ _ _ _ => rfl
  keeps := fun _ _ _ _ _ _ _ => trivial

/-- The variables are among these names, of which the memory has room for all. -/
def Fits (names : List String) (s : Store) : Prop :=
  (∀ x, s.contains x = true → x ∈ names) ∧ names.dedup.length ≤ 65535

theorem Fits.size_le {names : List String} {s : Store} (h : Fits names s) : s.size ≤ 65535 := by
  have hnodup : s.vars.keys.Nodup := Std.TreeMap.nodup_keys
  have hsubset : s.vars.keys ⊆ names.dedup := by
    intro x hx
    exact List.mem_dedup.2 (h.1 x (Std.TreeMap.mem_of_mem_keys hx))
  have hlen := (List.subperm_of_subset hnodup hsubset).length_le
  rw [Std.TreeMap.length_keys] at hlen
  exact Nat.le_trans hlen h.2

/-- As long as the names fit, the memory of the machine stores like one of
unlimited size. -/
theorem faithful_unlimited (names : List String) : Faithful Put.unlimited (Fits names) names where
  agrees := by
    intro s x v hs _
    have hle := hs.size_le
    exact if_neg (by omega)
  keeps := by
    intro s x v s' hs hx heq
    obtain rfl := Except.ok.inj heq
    refine ⟨?_, hs.2⟩
    intro y hy
    rw [Store.contains, Std.TreeMap.contains_insert, Bool.or_eq_true] at hy
    rcases hy with heq | hy
    · rw [← Std.LawfulEqCmp.compare_eq_iff_eq.1 (eq_of_beq heq)]
      exact hx
    · exact hs.1 y hy

theorem fits_initial {names : List String} (hnull : nullName ∈ names)
    (hlen : names.dedup.length ≤ 65535) : Fits names .initial := by
  refine ⟨?_, hlen⟩
  intro x hx
  rw [Store.contains, Store.initial, Std.TreeMap.contains_insert, Bool.or_eq_true] at hx
  rcases hx with heq | hx
  · rw [← Std.LawfulEqCmp.compare_eq_iff_eq.1 (eq_of_beq heq)]
    exact hnull
  · rw [Std.TreeMap.contains_emptyc] at hx
    cases hx

end Structured

end ScriptMachine
