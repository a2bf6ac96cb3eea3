/-
  ScriptMachine.Proofs.Phrases.Updates

  Updates against operators.  The line `x += e` combines the value of the phrase with that of
  the variable in one instruction; the line `x = x + (e)` takes the phrase for a group and
  reduces an expression.  Over integers and texts both store the same value, or fail with the
  same kind of error (`update_agrees_with_operation`), unless the variable or a name in the
  phrase is a temporary of the lines themselves (`temporary_updates_disagree`).
-/

import ScriptMachine.Proofs.Phrases.Evaluation

namespace ScriptMachine

/-- A single operator over an integer or a text: a product is added to the zero of its kind,
which gives the product. -/
theorem Value.reduce_pair {op : Operator} {a b : Value} (ha : a.kind = .int ∨ a.kind = .str) :
    reduce [a, b] [op] = apply op a b := by
  have hreduce : reduce [a, b] [op] =
      settleProducts a [(op, b)] >>= fun p => reduceLeft p.1 p.2 := rfl
  rw [hreduce]
  by_cases hop : op.isMultiplicative = true
  · cases hv : apply op a b with
    | error e => simp [settleProducts, hop, hv, bind, Except.bind]
    | ok v =>
      have hkind : v.kind = .int ∨ v.kind = .str := by
        rw [kind_apply (.inr hop) hv]
        exact ha
      have hsum : apply .add v.kind.zero v = .ok v := zero_sum hkind
      simp [settleProducts, hop, hv, reduceLeft, hsum, bind, Except.bind, pure, Except.pure]
  · simp only [settleProducts, hop, reduceLeft, List.foldlM_cons, List.foldlM_nil, bind,
      Except.bind, pure, Except.pure, Bool.false_eq_true, if_false]
    cases apply op a b <;> rfl

namespace Phrases

open Compile Structured
open Grouped (Free Roomy agree_store exists_store holdsPlan_of_feeds moved temporary temporaryName)

/-! ## Assigning operators -/

/-- An assigning operator combines as the operator that it is spelled with. -/
theorem combine_eq_apply {how : Assignment} {sign : Sign} (h : spelling how = sign.1.1 ++ ['=']) :
    how.combine = Value.apply sign.1.2 := by
  have hspelling := sign.ofSpelling?
  have hsplit : sign.1.1 = (spelling how).dropLast := by
    rw [h, List.dropLast_concat]
  rw [hsplit] at hspelling
  cases how with
  | mov => exact absurd hsplit sign.chars.1
  | _ =>
    have hop := Option.some.inj hspelling
    dsimp only at hop
    rw [← hop]
    rfl

/-! ## Running the update -/

section
variable {σ : Type} (host : Host σ) (h : σ) {b : Blocks} {t : Symbols} {limit : Nat} {m : Machine}

/-- One assigning instruction, where the memory is not full. -/
theorem steps_update {how : Assignment} {name : String} {e : Expression} {r : Except Error Value}
    (hat : Stands b [.assign how name e] m)
    (he : e.eval host .run (m.store, h) = Work.ofExcept r (m.store, h))
    (hsize : m.store.size ≤ 65535) :
    match r >>= how.combine (m.store.fetch name) with
    | .ok v => ∃ s, m.store.store name v = .ok s ∧
        Exec.steps host 1 (m, h) = .ok false (past m [.assign how name e] s, h)
    | .error err => Exec.Fails host (m, h) err.kind := by
  cases r with
  | error err => exact Exec.fails_assign hat.has hat.mode hat.running (.inl he)
  | ok w =>
    show match how.combine (m.store.fetch name) w with
      | .ok v => _
      | .error err => _
    cases hc : how.combine (m.store.fetch name) w with
    | error err =>
      refine Exec.fails_assign hat.has hat.mode hat.running (.inr ⟨w, he, ?_⟩)
      rw [hc]
      rfl
    | ok v =>
      have hstore : m.store.store name v = .ok ⟨m.store.vars.insert name v⟩ := if_neg (by omega)
      refine ⟨_, hstore, Exec.steps_assign hat.has hat.mode hat.running he ?_⟩
      rw [hc]
      exact hstore

/-- The line stores in its variable what the update makes of its value and that of the
phrase, or fails as they do; nothing else changes but its temporaries. -/
def Stores (m : Machine) (n q : Nat) (x : String) (r : Except Error Value) : Prop :=
  match r with
  | .ok v => ∃ s, Exec.steps host (n + 1) (m, h) = .ok false (moved m q s, h) ∧
      s.get? x = some v ∧
      ∀ y, y ≠ x → (∀ k < n, y ≠ temporaryName k) → s.get? y = m.store.get? y
  | .error e => Exec.Fails host (m, h) e.kind

/-- The instructions of a line that updates a variable. -/
theorem updateCode_runs {x : Mention} {how : Assignment} {p : Phrase}
    (hat : Stands b (updateCode t x how p) m) (husable : ∀ a ∈ p.atoms, a.Usable t limit)
    (hclear : p.Clear [] 0) (hx : ∀ k < p.pairs, x.text ≠ temporaryName k)
    (hroomy : Roomy m.store p.pairs) :
    Stores host h m p.pairs
      (m.position + Plan.size (Plan.ofInstructions (updateCode t x how p))) x.text
      (p.value t m.store >>= how.combine (m.store.fetch x.text)) := by
  rw [updateCode] at hat ⊢
  obtain ⟨hinner, hown⟩ := hclear
  rw [Nat.zero_add] at hown
  have hnames : ∀ k, 0 ≤ k → k < 0 + p.pairs → temporaryName k ∈
      m.store.vars.keys ++ (List.range p.pairs).map temporaryName := fun k _ hk =>
    List.mem_append_right _ (List.mem_map_of_mem (List.mem_range.2 (by omega)))
  have hsince : Since [] 0 m.store m.store := fun _ _ => rfl
  have hruns := p.runs host h _ hat.left husable hinner (List.forall_mem_nil _) hsince hroomy.fits
    hnames
  rw [Nat.zero_add] at hruns
  rw [Phrase.value]
  cases hvs : p.values t m.store with
  | error e =>
    rw [hvs] at hruns
    exact hruns
  | ok vs =>
    rw [hvs] at hruns
    obtain ⟨s, hsteps, hfits, hagree, rfl⟩ := hruns
    rw [Phrase.length_code] at hsteps
    have hsame := (hsince.agree (List.forall_mem_nil _) hagree (Nat.zero_le _)).fetch hown
    have heval := p.eval_tree host h (n := 0) husable hsame
    have hupdate := steps_update host h (hat.right s) heval hfits.size_le
    have hfetch : s.fetch x.text = m.store.fetch x.text := by
      rw [Store.fetch, Store.fetch, hagree x.text fun k _ hk => hx k hk]
    rw [show (past m (p.code t 0) s).store.fetch x.text = _ from hfetch] at hupdate
    show Stores host h m p.pairs _ x.text
      (Value.reduce _ p.operators >>= how.combine (m.store.fetch x.text))
    cases hr : Value.reduce (p.slotValues t m.store s 0) p.operators >>=
        how.combine (m.store.fetch x.text) with
    | error e =>
      rw [hr] at hupdate
      exact Exec.Goes.fails ⟨_, hsteps⟩ hupdate
    | ok v =>
      rw [hr] at hupdate
      obtain ⟨s', hstore, hstep⟩ := hupdate
      refine ⟨s', ?_, ?_, fun y hy hother => ?_⟩
      · rw [Exec.steps_add hsteps, hstep, past_append]
        rfl
      · rw [Store.get?_store hstore, if_pos rfl]
      · rw [Store.get?_store hstore, if_neg hy.symm]
        exact hagree y fun k _ hk => hother k hk

end

/-! ## Lines of a finished program -/

/-- In a compile run the line is compiled in the state `c`, and the run ends with the
program. -/
def CompiledFrom (c : Compiler) (text : List Char) (p : Program) : Prop :=
  ∃ (config : Config) (feeds feeds' : List Feed) (file source : String)
    (before after : List (List Char)) (c₀ f f' : Compiler),
    feeds.forM Feed.load (Compiler.ofConfig config) = .ok () c₀ ∧
    Source.lines source = before ++ text :: after ∧ Takes (loading c₀ file) before c ∧
    (feeds ++ .script file source :: feeds').forM Feed.load (Compiler.ofConfig config) =
      .ok () f ∧ finish f = .ok p f'

/-- The machine runs the program and has come to the line that was compiled in the state
`c`. -/
structure Arrived (c : Compiler) (p : Program) (m : Machine) : Prop where
  code : m.code = p.code
  position : m.position = c.program.position
  mode : m.mode = .run
  running : m.running = true

theorem CompiledFrom.stands {c c' : Compiler} {text : List Char} {p : Program}
    {is : List Instruction} {m : Machine} (hp : CompiledFrom c text p)
    (hline : line text c = .ok () c') (hwrites : c.Writes (Plan.ofInstructions is) c')
    (hm : Arrived c p m) : ∃ b, Stands b is m := by
  obtain ⟨config, feeds, feeds', file, source, before, after, c₀, f, f', hfeeds, hlines, hbefore,
    hall, hfinish⟩ := hp
  obtain ⟨b, hholds⟩ := holdsPlan_of_feeds hfeeds hlines hbefore hline hwrites hall hfinish
  rw [← hm.code, ← hm.position] at hholds
  exact ⟨b, hholds, hwrites.legible, hm.mode, hm.running⟩

/-- A line that updates a variable is compiled, and running it stores what the update makes of
the values of the variable and of the phrase. -/
theorem update_runs {c : Compiler} {x : Mention} {gap : Fill blanks} {how : Assignment}
    {p : Phrase} (hstem : c.config.stem = "$") (hopen : '(' ∉ x.chars)
    (hgap : how = .mod → gap.1 ≠ []) (hx : IsVariable c.symbols x.text)
    (husable : ∀ a ∈ p.atoms, a.Usable c.symbols c.config.maxString)
    (hfree : ∀ k < p.pairs, Free c.symbols (temporaryName k)) (hpairs : p.pairs ≤ 65536)
    (hother : ∀ k < p.pairs, x.text ≠ temporaryName k) (hclear : p.Clear [] 0) :
    ∃ c', line (updateLine x gap how p) c = .ok () c' ∧
      ∀ program, CompiledFrom c (updateLine x gap how p) program →
        ∀ {σ : Type} (host : Host σ) (m : Machine) (h : σ), Arrived c program m →
          Roomy m.store p.pairs → Stores host h m p.pairs c'.program.position x.text
            (p.value c.symbols m.store >>= how.combine (m.store.fetch x.text)) := by
  obtain ⟨c', hline, _, hwrites⟩ :=
    update_compiled hstem hopen hgap hx husable hfree hpairs
  refine ⟨c', hline, fun program hprogram σ host m h hm hroomy => ?_⟩
  obtain ⟨b, hstands⟩ := hprogram.stands hline hwrites hm
  have hruns := updateCode_runs host h hstands husable hclear hother hroomy
  rw [hm.position, ← hwrites.position] at hruns
  exact hruns

/-- A script that ends with a line that updates a variable, behind lines that write nothing
and leave nothing open, is compiled. -/
theorem exists_compile_update {c : Compiler} {file : String} {before : List (List Char)}
    {x : Mention} (source : String) (gap : Fill blanks) (how : Assignment) (p : Phrase)
    (hlines : Source.lines source = before ++ [updateLine x gap how p])
    (hbefore : Takes (fresh file) before c) (hnothing : (fresh file).Writes [] c)
    (hclosed : c.structures.top? = none) (hopen : '(' ∉ x.chars)
    (hgap : how = .mod → gap.1 ≠ []) (hx : IsVariable c.symbols x.text)
    (husable : ∀ a ∈ p.atoms, a.Usable c.symbols c.config.maxString)
    (hfree : ∀ k < p.pairs, Free c.symbols (temporaryName k)) (hpairs : p.pairs ≤ 65536) :
    ∃ program, compile file source = .ok program ∧
      CompiledFrom c (updateLine x gap how p) program := by
  have hconfig : c.config = (fresh file).config := config_of_takes hbefore
  have hstem : c.config.stem = "$" := by rw [hconfig]; rfl
  obtain ⟨c', hline, hnotes, hwrites⟩ := update_compiled hstem hopen hgap hx husable hfree hpairs
  have hall := takes_append_iff.2 ⟨c, hbefore, takes_singleton_iff.2 hline⟩
  rw [← hlines] at hall
  have hclosed' : c'.structures.top? = none := by rw [hnotes.structures, hclosed]
  obtain ⟨program, hprogram, _⟩ :=
    Grouped.exists_compile hall (hnothing.trans hwrites) hclosed'
  obtain ⟨f, f', htakes, hfinish⟩ := compile_eq_ok_iff.1 hprogram
  have hscript := Grouped.forM_singleton_eq_ok_iff.2 (script_eq_ok_iff.2 htakes)
  exact ⟨program, hprogram, {}, [], [], file, source, before, [], _, f, f', rfl, hlines,
    hbefore, hscript, hfinish⟩

/-! ## The operation as an expression -/

/-- The phrase `x + (e)`, with whatever is skipped around its operands. -/
def operation (front : Fill ahead) (x : Mention) (back : Fill behind) (sign : Sign)
    (inner : Fill ahead) (e : Phrase) (z : Ending) : Phrase :=
  .more front (.atom (.name x)) back sign (.last inner (.group e) z)

section
variable {front : Fill ahead} {x : Mention} {back : Fill behind} {sign : Sign}
  {inner : Fill ahead} {e : Phrase} {z : Ending}

theorem pairs_operation : (operation front x back sign inner e z).pairs = e.pairs + 1 := by
  simp only [operation, Phrase.pairs, Part.pairs]
  omega

theorem atoms_operation :
    (operation front x back sign inner e z).atoms = .name x :: e.atoms := by
  simp only [operation, Phrase.atoms, Part.atoms, List.singleton_append]

theorem clear_operation (hx : ∀ k ≤ e.pairs, x.text ≠ temporaryName k) (he : e.Clear [0] 1) :
    (operation front x back sign inner e z).Clear [] 0 := by
  refine ⟨⟨trivial, he⟩, ?_⟩
  rw [pairs_operation]
  refine List.forall_mem_singleton.2 fun k hk _ => hx k (by omega)

theorem value_operation {t : Symbols} {s : Store} (hx : t.get? x.text = some .var)
    (hkind : (s.fetch x.text).kind = .int ∨ (s.fetch x.text).kind = .str) :
    (operation front x back sign inner e z).value t s =
      e.value t s >>= Value.apply sign.1.2 (s.fetch x.text) := by
  have hgiven : (Atom.name x).given t s = s.fetch x.text := by
    rw [Atom.given, namedValue, hx]
  rw [Phrase.value, Phrase.value, operation]
  simp only [Phrase.values, Part.value, hgiven, Phrase.operators]
  cases e.values t s with
  | error err => rfl
  | ok vs =>
    show ((Value.reduce vs e.operators >>= fun w => pure [w]) >>= fun ws =>
        pure (s.fetch x.text :: ws)) >>= (Value.reduce · [sign.1.2]) =
      Value.reduce vs e.operators >>= Value.apply sign.1.2 (s.fetch x.text)
    cases Value.reduce vs e.operators with
    | error err => rfl
    | ok w => exact Value.reduce_pair hkind

end

/-! ## Phrases of digits -/

/-- Nothing. -/
def noFill (set : List Char) : Fill set :=
  ⟨[], List.forall_mem_nil _⟩

/-- The end of a phrase with nothing behind it. -/
def noEnding : Ending :=
  ⟨noFill _, noFill _, noFill _⟩

theorem minus_mem : (['-'], .sub) ∈ Operator.spellings := by
  decide

/-- The sign of a difference. -/
def minus : Sign :=
  ⟨_, minus_mem⟩

theorem times_mem : (['*'], .mul) ∈ Operator.spellings := by
  decide

/-- The sign of a product. -/
def times : Sign :=
  ⟨_, times_mem⟩

theorem isDigit_digitChar (n : Fin 10) : (Nat.digitChar n).isDigit = true := by
  decide +revert

/-- A digit as an operand. -/
def digit (n : Fin 10) : Part :=
  .atom (.number (.ofDigit (Nat.digitChar n) (isDigit_digitChar n)))

/-- The name of a declaration. -/
def Mention.ofName (x : Name) : Mention :=
  .ofWord x.isWord x.not_isDigits

/-- The phrase `(2+3)*4`. -/
def sumTimesFour : Phrase :=
  .more (noFill _)
    (.group (.more (noFill _) (digit 2) (noFill _) plus
      (.last (noFill _) (digit 3) noEnding)))
    (noFill _) times (.last (noFill _) (digit 4) noEnding)

theorem value_sumTimesFour (t : Symbols) (s : Store) : sumTimesFour.value t s = .ok (.int 20) :=
  rfl

/-- The phrase `x-((2+3)*4)`. -/
def difference : Phrase :=
  operation (noFill _) (.ofName nameX) (noFill _) minus (noFill _) sumTimesFour noEnding

/-! ## Agreement -/

section
variable {front : Fill ahead} {x : Mention} {back : Fill behind} {sign : Sign}
  {inner : Fill ahead} {e : Phrase} {z : Ending}

/-- `x += e` is `x = x + (e)`, and so for the other operators of arithmetic.  Wherever the two
lines are compiled in the same state, both are compiled; and machines that come to them with
the same variables, where `x` holds an integer or a text, both store the same value in `x`,
all other variables but the temporaries of the lines being as before, or both fail with the
same kind of error.  The names must be those of variables or constants, must be read as a
whole and must fit the stream; the temporaries of the second line must not stand for anything
else than variables, must not be `x`, and must not be read in `e` once a line has stored them;
and the memory must have room for them. -/
theorem update_agrees_with_operation {c : Compiler} {how : Assignment} (gap gap' : Fill blanks)
    (hhow : spelling how = sign.1.1 ++ ['=']) (hgap : how = .mod → gap.1 ≠ [])
    (hstem : c.config.stem = "$") (hopen : '(' ∉ x.chars)
    (hx : IsVariable c.symbols x.text)
    (husable : ∀ a ∈ e.atoms, a.Usable c.symbols c.config.maxString)
    (hfree : ∀ k ≤ e.pairs, Free c.symbols (temporaryName k)) (hpairs : e.pairs < 65536)
    (hother : ∀ k ≤ e.pairs, x.text ≠ temporaryName k) (hclear : e.Clear [] 0)
    (hclear' : e.Clear [0] 1) :
    let update := updateLine x gap how e
    let assign := updateLine x gap' .mov (operation front x back sign inner e z)
    ∃ c₁ c₂, line update c = .ok () c₁ ∧ line assign c = .ok () c₂ ∧
      ∀ p₁ p₂, CompiledFrom c update p₁ → CompiledFrom c assign p₂ →
        ∀ {σ : Type} (host : Host σ) (m₁ m₂ : Machine) (h : σ), Arrived c p₁ m₁ →
          Arrived c p₂ m₂ → ∀ s, m₁.store = s → m₂.store = s → Roomy s (e.pairs + 1) →
          (s.fetch x.text).kind = .int ∨ (s.fetch x.text).kind = .str →
            (∀ v, e.value c.symbols s >>= how.combine (s.fetch x.text) = .ok v →
              ∃ s₁ s₂,
                Exec.steps host (e.pairs + 1) (m₁, h) =
                  .ok false (moved m₁ c₁.program.position s₁, h) ∧
                Exec.steps host (e.pairs + 2) (m₂, h) =
                  .ok false (moved m₂ c₂.program.position s₂, h) ∧
                s₁.get? x.text = some v ∧ s₂.get? x.text = some v ∧
                ∀ y, y ≠ x.text → (∀ k ≤ e.pairs, y ≠ temporaryName k) →
                  s₁.get? y = s.get? y ∧ s₂.get? y = s.get? y) ∧
            ∀ err, e.value c.symbols s >>= how.combine (s.fetch x.text) = .error err →
              Exec.Fails host (m₁, h) err.kind ∧ Exec.Fails host (m₂, h) err.kind := by
  intro update assign
  have hpairs' : (operation front x back sign inner e z).pairs = e.pairs + 1 := pairs_operation
  obtain ⟨c₁, hline₁, hruns₁⟩ := update_runs hstem hopen hgap hx husable
    (fun k hk => hfree k (by omega)) (by omega) (fun k hk => hother k (by omega)) hclear
  have husable' : ∀ a ∈ (operation front x back sign inner e z).atoms,
      a.Usable c.symbols c.config.maxString := by
    rw [atoms_operation]
    exact List.forall_mem_cons.2 ⟨.inl hx, husable⟩
  obtain ⟨c₂, hline₂, hruns₂⟩ := @update_runs c x gap' .mov (operation front x back sign inner e z)
    hstem hopen (fun hmod => Assignment.noConfusion hmod) hx husable'
    (fun k hk => hfree k (by omega)) (by omega) (fun k hk => hother k (by omega))
    (clear_operation hother hclear')
  refine ⟨c₁, c₂, hline₁, hline₂, ?_⟩
  rintro p₁ p₂ hp₁ hp₂ σ host m₁ m₂ h hm₁ hm₂ s rfl hstore hroomy hkind
  have hroomy₁ : Roomy m₁.store e.pairs := hroomy.mono (by omega)
  have hstores₁ := hruns₁ p₁ hp₁ host m₁ h hm₁ hroomy₁
  have hstores₂ := hruns₂ p₂ hp₂ host m₂ h hm₂ (by rw [hstore, hpairs']; exact hroomy)
  -- the operation has the value of the update
  have hvalue : (operation front x back sign inner e z).value c.symbols m₁.store >>=
      Assignment.mov.combine (m₁.store.fetch x.text) =
        e.value c.symbols m₁.store >>= how.combine (m₁.store.fetch x.text) := by
    rw [value_operation hx.1 hkind, combine_eq_apply hhow]
    exact bind_pure _
  rw [hstore, hpairs', hvalue] at hstores₂
  refine ⟨fun v hv => ?_, fun err herr => ?_⟩
  · rw [hv] at hstores₁ hstores₂
    obtain ⟨s₁, hsteps₁, hx₁, hothers₁⟩ := hstores₁
    obtain ⟨s₂, hsteps₂, hx₂, hothers₂⟩ := hstores₂
    refine ⟨s₁, s₂, hsteps₁, hsteps₂, hx₁, hx₂, fun y hy hk => ⟨?_, ?_⟩⟩
    · exact hothers₁ y hy fun k hlt => hk k (by omega)
    · rw [hothers₂ y hy fun k hlt => hk k (by omega), hstore]
  · rw [herr] at hstores₁ hstores₂
    exact ⟨hstores₁, hstores₂⟩

end

/-- A difference with a group in its right side. -/
theorem difference_runs :
    ∃ p q, compile "" "var x\nx-=(2+3)*4" = .ok p ∧ compile "" "var x\nx=x-((2+3)*4)" = .ok q ∧
      ∀ {σ : Type} (host : Host σ) (m : Machine) (h : σ), ∃ i j s₁ s₂,
        Exec.steps host 2 (started m p.code, h) = .ok false (moved (started m p.code) i s₁, h) ∧
        Exec.steps host 3 (started m q.code, h) = .ok false (moved (started m q.code) j s₂, h) ∧
        s₁.get? "x" = some (.int (-20)) ∧ s₂.get? "x" = some (.int (-20)) ∧
        ∀ y, y ≠ "x" → y ≠ "$0" → y ≠ "$1" →
          s₁.get? y = Store.initial.get? y ∧ s₂.get? y = Store.initial.get? y := by
  let c := declared (fresh "") nameX
  let x := Mention.ofName nameX
  have htakes : Takes (fresh "") [headed .var nameX.chars] c := Grouped.takes_declared "" nameX
  have hnothing : (fresh "").Writes [] c := Grouped.writes_declared "" nameX
  have hx : IsVariable c.symbols x.text := ⟨Grouped.get?_declared "" nameX, by decide⟩
  have hopen : '(' ∉ x.chars := by decide
  have hfree : ∀ k, Free c.symbols (temporaryName k) := Grouped.free_declared "" nameX
  have hother : ∀ k, x.text ≠ temporaryName k :=
    (Grouped.Variable.ofName nameX).text_ne_temporaryName
  have husable : ∀ a ∈ sumTimesFour.atoms, a.Usable c.symbols c.config.maxString :=
    List.forall_mem_cons.2 ⟨trivial, List.forall_mem_cons.2
      ⟨trivial, List.forall_mem_singleton.2 trivial⟩⟩
  have husable' : ∀ a ∈ difference.atoms, a.Usable c.symbols c.config.maxString := by
    rw [difference, atoms_operation]
    exact List.forall_mem_cons.2 ⟨.inl hx, husable⟩
  have hclear : ∀ around n, sumTimesFour.Clear around n := fun around n =>
    ⟨⟨⟨⟨trivial, trivial⟩, List.forall_mem_nil _⟩, trivial⟩, List.forall_mem_nil _⟩
  obtain ⟨p, hp, hp'⟩ := exists_compile_update "var x\nx-=(2+3)*4" (noFill _) .sub sumTimesFour
    (by decide +kernel) htakes hnothing rfl hopen (fun hmod => Assignment.noConfusion hmod)
    hx husable (fun k _ => hfree k) (by decide)
  obtain ⟨q, hq, hq'⟩ := exists_compile_update "var x\nx=x-((2+3)*4)" (noFill _) .mov difference
    (by decide +kernel) htakes hnothing rfl hopen (fun hmod => Assignment.noConfusion hmod)
    hx husable' (fun k _ => hfree k) (by decide)
  have hfetch : Store.initial.fetch x.text = .int 0 :=
    show Store.initial.fetch nameX.text = .int 0 from rfl
  have hvalue : sumTimesFour.value c.symbols .initial >>=
      Assignment.sub.combine (Store.initial.fetch x.text) = .ok (.int (-20)) := by
    have hdifference : (0 - 20 : Int64) = -20 := by decide
    rw [value_sumTimesFour, hfetch, ← hdifference]
    rfl
  refine ⟨p, q, hp, hq, fun host m h => ?_⟩
  obtain ⟨c₁, c₂, _, _, hruns⟩ := @update_agrees_with_operation (noFill _) x (noFill _) minus
    (noFill _) sumTimesFour noEnding c .sub (noFill _) (noFill _) rfl
    (fun hmod => Assignment.noConfusion hmod) rfl hopen hx husable (fun k _ => hfree k) (by decide)
    (fun k _ => hother k) (hclear _ _) (hclear _ _)
  obtain ⟨s₁, s₂, hsteps₁, hsteps₂, hx₁, hx₂, hothers⟩ := (hruns p q hp' hq' host
    (started m p.code) (started m q.code) h ⟨rfl, rfl, rfl, rfl⟩ ⟨rfl, rfl, rfl, rfl⟩ .initial rfl
    rfl (Grouped.roomy_of_le (by decide)) (.inl (by rw [hfetch]; rfl))).1 (.int (-20)) hvalue
  refine ⟨_, _, s₁, s₂, hsteps₁, hsteps₂, hx₁, hx₂, fun y hy h₀ h₁ => hothers y hy fun k hk => ?_⟩
  have hpairs : sumTimesFour.pairs = 1 := rfl
  obtain rfl | rfl : k = 0 ∨ k = 1 := by omega
  · exact h₀
  · exact h₁

/-- The line `var $0` makes a variable of the first temporary, and writes nothing. -/
theorem exists_takes_temporary :
    ∃ c, Takes (fresh "") ["var $0".toList] c ∧
      c.symbols.get? (temporaryName 0) = some .var ∧ (fresh "").Writes [] c ∧
      c.structures.top? = none := by
  have hok : (match ["var $0".toList].forM line (fresh "") with
      | .ok _ c => c.symbols.get? (temporaryName 0) = some .var && c.program.code.isEmpty &&
        c.fixups.isEmpty && c.structures.top?.isNone
      | .error _ _ => false) = true := by
    decide +kernel
  split at hok
  · rename_i u c hc
    simp only [Bool.and_eq_true, decide_eq_true_eq, Array.isEmpty_iff, Option.isNone_iff_eq_none]
      at hok
    obtain ⟨⟨⟨hvar, hcode⟩, hfixups⟩, hclosed⟩ := hok
    exact ⟨c, takes_of_forM_line hc, hvar, .none hcode hfixups, hclosed⟩
  · cases hok

/-- The phrase `1`. -/
def onePhrase : Phrase :=
  .last (noFill _) (digit 1) noEnding

/-- The phrase `$0+(1)`. -/
def temporaryPlusOne : Phrase :=
  operation (noFill _) (ofTemporary 0) (noFill _) plus (noFill _) onePhrase noEnding

/-- The variable must not be a temporary of the second line: the group is stored in it before
it is read. -/
theorem temporary_updates_disagree :
    ∃ p q, compile "" "var $0\n$0+=1" = .ok p ∧ compile "" "var $0\n$0=$0+(1)" = .ok q ∧
      ∀ {σ : Type} (host : Host σ) (m : Machine) (h : σ), ∃ i j s₁ s₂,
        Exec.steps host 1 (started m p.code, h) = .ok false (moved (started m p.code) i s₁, h) ∧
        Exec.steps host 2 (started m q.code, h) = .ok false (moved (started m q.code) j s₂, h) ∧
        s₁.get? "$0" = some (.int 1) ∧ s₂.get? "$0" = some (.int 2) := by
  obtain ⟨c, htakes, hvar, hnothing, hclosed⟩ := exists_takes_temporary
  have hconfig : c.config = (fresh "").config := config_of_takes htakes
  have hstem : c.config.stem = "$" := by rw [hconfig]; rfl
  have hx : IsVariable c.symbols (ofTemporary 0).text := ⟨hvar, by decide⟩
  have hopen : '(' ∉ (ofTemporary 0).chars := by decide
  have hone : ∀ a ∈ onePhrase.atoms, a.Usable c.symbols c.config.maxString :=
    List.forall_mem_singleton.2 trivial
  have hsum : ∀ a ∈ temporaryPlusOne.atoms, a.Usable c.symbols c.config.maxString :=
    List.forall_mem_cons.2 ⟨.inl hx, hone⟩
  have hpairs : temporaryPlusOne.pairs = 1 := rfl
  have hfree : ∀ k < temporaryPlusOne.pairs, Free c.symbols (temporaryName k) := by
    intro k hk
    obtain rfl : k = 0 := by omega
    exact .inr hvar
  have hmov : Assignment.mov = .mod → (noFill blanks).1 ≠ [] :=
    fun hmod => Assignment.noConfusion hmod
  have hadd : Assignment.add = .mod → (noFill blanks).1 ≠ [] :=
    fun hmod => Assignment.noConfusion hmod
  obtain ⟨p, hp, hp'⟩ := exists_compile_update "var $0\n$0+=1" (noFill _) .add onePhrase
    (by decide +kernel) htakes hnothing hclosed hopen hadd hx hone
    (fun k hk => absurd hk (Nat.not_lt_zero k)) (by decide)
  obtain ⟨q, hq, hq'⟩ := exists_compile_update "var $0\n$0=$0+(1)" (noFill _) .mov
    temporaryPlusOne (by decide +kernel) htakes hnothing hclosed hopen hmov hx hsum hfree
    (by decide)
  have hposition : 0 = c.program.position := hnothing.position.symm
  have hfetch : Store.initial.fetch (temporaryName 0) = .int 0 := rfl
  refine ⟨p, q, hp, hq, fun host m h => ?_⟩
  -- the update adds 1 to 0
  obtain ⟨c₁, _, hruns⟩ := update_runs hstem hopen hadd hx hone
    (fun k hk => absurd hk (Nat.not_lt_zero k)) (by decide)
    (fun k hk => absurd hk (Nat.not_lt_zero k)) ⟨trivial, List.forall_mem_nil _⟩
  have hempty : Roomy Store.initial 0 := Grouped.roomy_of_le (by decide)
  have hstores := hruns p hp' host (started m p.code) h ⟨rfl, hposition, rfl, rfl⟩ hempty
  rw [show onePhrase.value c.symbols (started m p.code).store = .ok (.int 1) from rfl,
    show (started m p.code).store.fetch (ofTemporary 0).text = .int 0 from hfetch] at hstores
  obtain ⟨s₁, hsteps₁, hx₁, _⟩ := hstores
  -- the operation finds the group in its own variable
  obtain ⟨c₂, hline, _, hwrites⟩ := update_compiled hstem hopen hmov hx hsum hfree (by decide)
  obtain ⟨b, hat⟩ := hq'.stands hline hwrites (m := started m q.code) ⟨rfl, hposition, rfl, rfl⟩
  rw [updateCode] at hat
  have hroomy : Roomy Store.initial 1 := Grouped.roomy_of_le (by decide)
  have hclear : temporaryPlusOne.InnerClear [] 0 := ⟨trivial, trivial, List.forall_mem_nil _⟩
  have hsince : Since [] 0 .initial (started m q.code).store := fun _ _ => rfl
  have hgroups := temporaryPlusOne.runs host h _ hat.left hsum hclear (List.forall_mem_nil _) hsince
    hroomy.fits (fun k _ hk => List.mem_append_right _
      (List.mem_map_of_mem (List.mem_range.2 (by omega))))
  obtain ⟨s, hsteps, hfits, _, hslots⟩ := hgroups
  have hgroup : s.fetch (temporaryName 0) = .int 1 := (List.cons.inj (List.cons.inj hslots).2).1
  have hsame : ∀ y ∈ temporaryPlusOne.mentions, s.fetch y.text = s.fetch y.text := fun _ _ => rfl
  have heval := temporaryPlusOne.eval_tree host h (n := 0) hsum hsame
  have hslot : temporaryPlusOne.slotValues c.symbols s s 0 = [.int 1, .int 1] := by
    have hgiven : (Atom.name (ofTemporary 0)).given c.symbols s = .int 1 := by
      rw [Atom.given, namedValue, show c.symbols.get? (ofTemporary 0).text = _ from hvar]
      exact hgroup
    show [(Atom.name (ofTemporary 0)).given c.symbols s, s.fetch (temporaryName 0)] = _
    rw [hgiven, hgroup]
  have htwo : Value.reduce [.int 1, .int 1] temporaryPlusOne.operators = .ok (.int 2) := rfl
  rw [hslot, htwo] at heval
  obtain ⟨s₂, hstore, hstep⟩ := steps_update host h (hat.right s) heval hfits.size_le
  have hsteps₂ := (Exec.steps_add hsteps 1).trans hstep
  rw [past_append] at hsteps₂
  refine ⟨_, _, s₁, s₂, hsteps₁, hsteps₂, hx₁, ?_⟩
  rw [show "$0" = (ofTemporary 0).text from rfl, Store.get?_store hstore, if_pos rfl]

end Phrases

end ScriptMachine
