/-
  ScriptMachine.Proofs.Phrases.Evaluation

  Running a line that updates a variable with a phrase.  The instructions of the groups leave
  the values of the groups in their temporaries (`Phrase.runs`); then the update combines the
  value of the phrase with that of the variable (`updateCode_runs`).  The values are those of
  the variables at the start of the line, as long as no name is that of a temporary which the
  line has stored when the name is read (`Phrase.Clear`).
-/

import ScriptMachine.Proofs.Phrases.Compilation

namespace ScriptMachine.Phrases

open Compile Structured
open Grouped (Agree agree_store exists_store moved ofInstructions_append temporary temporaryName
  temporaryName_injective)

/-! ## Values -/

/-- The value that a name stands for. -/
def namedValue (t : Symbols) (s : Store) (name : String) : Value :=
  match t.get? name with
  | some (.constant k) => k.value
  | _ => s.fetch name

/-- Value of an atom. -/
def Atom.given (t : Symbols) (s : Store) : Atom → Value
  | number d => .int d.value
  | text q => .str q.text
  | marked w => namedValue t s w.text
  | name y => namedValue t s y.text

/-- Operators of a phrase, in order. -/
def Phrase.operators : Phrase → List Operator
  | .last .. => []
  | .more _ _ _ sign rest => sign.1.2 :: rest.operators

mutual

/-- Value of an operand. -/
def Part.value (t : Symbols) (s : Store) : Part → Except Error Value
  | .atom a => return a.given t s
  | .group p => do Value.reduce (← p.values t s) p.operators

/-- Values of the operands of a phrase, in order. -/
def Phrase.values (t : Symbols) (s : Store) : Phrase → Except Error (List Value)
  | .last _ i _ => do return [← i.value t s]
  | .more _ i _ _ rest => do
    let v ← i.value t s
    let vs ← rest.values t s
    return v :: vs

end

/-- Value of a phrase: its operands and operators are reduced. -/
def Phrase.value (t : Symbols) (s : Store) (p : Phrase) : Except Error Value := do
  Value.reduce (← p.values t s) p.operators

/-! ## Names that are read as they were -/

/-- The names among the atoms of an operand, those in its group aside. -/
def Part.mentions : Part → List Mention
  | .atom (.name y) => [y]
  | _ => []

/-- The names among the operands of a phrase, those in its groups aside. -/
def Phrase.mentions : Phrase → List Mention
  | .last _ i _ => i.mentions
  | .more _ i _ _ rest => i.mentions ++ rest.mentions

/-- None of the names is that of a temporary that was stored: of one of the first `n` groups,
unless that is still open.  `around` are the open groups. -/
def Unstored (around : List Nat) (n : Nat) (names : List Mention) : Prop :=
  ∀ y ∈ names, ∀ k < n, k ∉ around → y.text ≠ temporaryName k

mutual

/-- The names in a group are read as they were at the start of the line; `n` groups were
opened before it, and those of `around` are still open. -/
def Part.Clear (around : List Nat) (n : Nat) : Part → Prop
  | .atom _ => True
  | .group p => p.InnerClear (n :: around) (n + 1) ∧
      Unstored (n :: around) (n + 1 + p.pairs) p.mentions

/-- The names in the groups of a phrase are read as they were at the start of the line. -/
def Phrase.InnerClear (around : List Nat) (n : Nat) : Phrase → Prop
  | .last _ i _ => i.Clear around n
  | .more _ i _ _ rest => i.Clear around n ∧ rest.InnerClear around (n + i.pairs)

end

/-- All names of a phrase are read as they were at the start of the line: none is that of a
temporary which is stored before the name is read. -/
def Phrase.Clear (around : List Nat) (n : Nat) (p : Phrase) : Prop :=
  p.InnerClear around n ∧ Unstored around (n + p.pairs) p.mentions

/-- The variables are as they were at first, but for the temporaries of groups that have been
closed. -/
def Since (around : List Nat) (n : Nat) (s₀ s : Store) : Prop :=
  ∀ y, (∀ k < n, k ∉ around → y ≠ temporaryName k) → s.get? y = s₀.get? y

section
variable {around : List Nat} {n hi : Nat} {s₀ s s' : Store}

theorem Since.enter (h : Since around n s₀ s) : Since (n :: around) (n + 1) s₀ s := by
  intro y hy
  refine h y fun k hk hmem => hy k (by omega) ?_
  rintro (_ | ⟨_, hmem'⟩)
  · omega
  · exact hmem hmem'

theorem Since.agree (h : Since around n s₀ s) (haround : ∀ k ∈ around, k < n)
    (k : Agree n hi s s') (hhi : n ≤ hi) : Since around hi s₀ s' := by
  intro y hy
  have hbefore := h y fun j hj hmem => hy j (by omega) hmem
  rw [← hbefore]
  refine k y fun j hj hj' => hy j hj' fun hmem => ?_
  have := haround j hmem
  omega

theorem Since.fetch (h : Since around n s₀ s) {names : List Mention}
    (hnames : Unstored around n names) : ∀ y ∈ names, s.fetch y.text = s₀.fetch y.text := by
  intro y hy
  rw [Store.fetch, Store.fetch, h y.text (hnames y hy)]

end

/-! ## Evaluation -/

section
variable {σ : Type} (host : Host σ) (h : σ) {t : Symbols} {limit : Nat} {s₀ s : Store}

/-- What is read in the place of an operand. -/
def Part.slotValue (t : Symbols) (s₀ s : Store) (n : Nat) : Part → Value
  | .atom a => a.given t s₀
  | .group _ => s.fetch (temporaryName n)

/-- What is read in the places of the operands. -/
def Phrase.slotValues (t : Symbols) (s₀ s : Store) (n : Nat) : Phrase → List Value
  | .last _ i _ => [i.slotValue t s₀ s n]
  | .more _ i _ _ rest => i.slotValue t s₀ s n :: rest.slotValues t s₀ s (n + i.pairs)

theorem eval_constant (k : Constant) :
    k.operand.eval host .run (s, h) = .ok k.value (s, h) := by
  cases k <;> simp only [Constant.operand, Operand.eval] <;> rfl

theorem eval_named (name : String) :
    (named t name).eval host .run (s, h) = .ok (namedValue t s name) (s, h) := by
  unfold named namedValue
  cases t.get? name with
  | none =>
    simp only [Operand.eval]
    rfl
  | some symbol =>
    cases symbol with
    | constant k => exact eval_constant host h k
    | _ =>
      simp only [Operand.eval]
      rfl

theorem namedValue_of_constant {name : String} (hname : IsConstant t name) :
    namedValue t s name = namedValue t s₀ name := by
  obtain ⟨k, hk, _⟩ := hname
  rw [namedValue, namedValue, hk]

theorem namedValue_of_fetch {name : String} (hname : s.fetch name = s₀.fetch name) :
    namedValue t s name = namedValue t s₀ name := by
  rw [namedValue, namedValue, hname]

theorem Part.eval_operand {i : Part} {n : Nat} (husable : ∀ a ∈ i.atoms, a.Usable t limit)
    (hsame : ∀ y ∈ i.mentions, s.fetch y.text = s₀.fetch y.text) :
    (i.operand t n).eval host .run (s, h) = .ok (i.slotValue t s₀ s n) (s, h) := by
  cases i with
  | group p =>
    simp only [operand, Operand.eval]
    rfl
  | atom a =>
    have ha := husable a List.mem_cons_self
    cases a with
    | number d =>
      simp only [operand, Atom.resolve, Operand.eval]
      rfl
    | text q =>
      simp only [operand, Atom.resolve, Operand.eval]
      rfl
    | marked w =>
      have heval := @eval_named σ host h t s w.text
      have hvalue : namedValue t s w.text = namedValue t s₀ w.text := namedValue_of_constant ha
      rw [hvalue] at heval
      exact heval
    | name y =>
      have heval := @eval_named σ host h t s y.text
      rw [namedValue_of_fetch (hsame y List.mem_cons_self)] at heval
      exact heval

theorem Phrase.chain_tree : ∀ {p : Phrase} {n : Nat}, (∀ a ∈ p.atoms, a.Usable t limit) →
    (∀ y ∈ p.mentions, s.fetch y.text = s₀.fetch y.text) →
    (p.tree t n).chain host .run (s, h) = .ok (p.slotValues t s₀ s n, p.operators) (s, h)
  | .last _ i _, n, husable, hsame => by
    rw [Phrase.atoms] at husable
    have hi := i.eval_operand host h (n := n) husable hsame
    simp only [tree, Expression.chain, bind, EStateM.bind, hi]
    rfl
  | .more _ i _ sign rest, n, husable, hsame => by
    rw [Phrase.atoms] at husable
    obtain ⟨husablei, husablerest⟩ := List.forall_mem_append.1 husable
    obtain ⟨hsamei, hsamerest⟩ := List.forall_mem_append.1 hsame
    have hi := i.eval_operand host h (n := n) husablei hsamei
    have hrest := Phrase.chain_tree (n := n + i.pairs) husablerest hsamerest
    simp only [tree, Expression.chain, bind, EStateM.bind, hi, hrest]
    rfl

/-- The operands and operators are reduced, and nothing else changes. -/
theorem Phrase.eval_tree {p : Phrase} {n : Nat} (husable : ∀ a ∈ p.atoms, a.Usable t limit)
    (hsame : ∀ y ∈ p.mentions, s.fetch y.text = s₀.fetch y.text) :
    (p.tree t n).eval host .run (s, h) =
      Work.ofExcept (Value.reduce (p.slotValues t s₀ s n) p.operators) (s, h) := by
  simp only [Expression.eval, bind, EStateM.bind, Phrase.chain_tree host h husable hsame]
  rfl

end

/-! ## Runs of instructions -/

/-- The machine runs, and the instructions are the next ones of its program. -/
structure Stands (b : Blocks) (is : List Instruction) (m : Machine) : Prop where
  code : m.code.HoldsPlan b m.position (Plan.ofInstructions is)
  legible : Plan.Legible (Plan.ofInstructions is)
  mode : m.mode = .run
  running : m.running = true

/-- The machine behind the instructions, with other variables. -/
def past (m : Machine) (is : List Instruction) (s : Store) : Machine :=
  moved m (m.position + Plan.size (Plan.ofInstructions is)) s

section
variable {b : Blocks} {is js : List Instruction} {m : Machine}

theorem Stands.left (h : Stands b (is ++ js) m) : Stands b is m := by
  obtain ⟨hcode, hlegible, hmode, hrunning⟩ := h
  rw [ofInstructions_append] at hcode hlegible
  exact ⟨(Code.holdsPlan_append_iff.1 hcode).1, (List.forall_mem_append.1 hlegible).1, hmode,
    hrunning⟩

theorem Stands.right (h : Stands b (is ++ js) m) (s : Store) : Stands b js (past m is s) := by
  obtain ⟨hcode, hlegible, hmode, hrunning⟩ := h
  rw [ofInstructions_append] at hcode hlegible
  exact ⟨(Code.holdsPlan_append_iff.1 hcode).2, (List.forall_mem_append.1 hlegible).2, hmode,
    hrunning⟩

theorem Stands.has {i : Instruction} (h : Stands b [i] m) :
    m.code.Has m.position i (past m [i] m.store).position :=
  h.code.has (h.legible _ List.mem_cons_self)

theorem past_append (s s' : Store) : past (past m is s) js s' = past m (is ++ js) s' := by
  simp only [past, moved, ofInstructions_append, Plan.size_append, Nat.add_assoc]

end

section
variable {σ : Type} (host : Host σ) (h : σ) (names : List String) {b : Blocks}
  {is js : List Instruction} {m : Machine} {α β : Type} {lo hi : Nat}

/-- Running the instructions fails as the value does, or leads behind them to variables that
relate to the value; of the names before, only temporaries between the bounds change. -/
def Yields (is : List Instruction) (m : Machine) (lo hi : Nat) (x : Except Error α)
    (Q : Store → α → Prop) : Prop :=
  match x with
  | .ok a => ∃ s, Exec.steps host is.length (m, h) = .ok false (past m is s, h) ∧
      Fits names s ∧ Agree lo hi m.store s ∧ Q s a
  | .error e => Exec.Fails host (m, h) e.kind

variable {host h names} {x : Except Error α} {f : α → Except Error β} {Q : Store → α → Prop}
  {R : Store → β → Prop}

theorem Yields.mono {lo' hi' : Nat} {Q' : Store → α → Prop}
    (hx : Yields host h names is m lo hi x Q) (hlo : lo' ≤ lo) (hhi : hi ≤ hi')
    (hQ : ∀ s a, Agree lo hi m.store s → Q s a → Q' s a) :
    Yields host h names is m lo' hi' x Q' := by
  cases x with
  | error e => exact hx
  | ok a =>
    obtain ⟨s, hsteps, hfits, hagree, hq⟩ := hx
    exact ⟨s, hsteps, hfits, hagree.mono hlo hhi, hQ s a hagree hq⟩

/-- Instructions one behind the other. -/
theorem Yields.bind (hx : Yields host h names is m lo hi x Q)
    (k : ∀ s a, Fits names s → Agree lo hi m.store s → Q s a →
      Yields host h names js (past m is s) lo hi (f a) R) :
    Yields host h names (is ++ js) m lo hi (x >>= f) R := by
  cases x with
  | error e => exact hx
  | ok a =>
    obtain ⟨s, hsteps, hfits, hagree, hq⟩ := hx
    have hk := k s a hfits hagree hq
    show Yields host h names (is ++ js) m lo hi (f a) R
    cases hf : f a with
    | error e =>
      rw [hf] at hk
      exact Exec.Goes.fails ⟨_, hsteps⟩ hk
    | ok c =>
      rw [hf] at hk
      obtain ⟨s', hsteps', hfits', hagree', hr⟩ := hk
      refine ⟨s', ?_, hfits', hagree.trans hagree', hr⟩
      rw [List.length_append, Exec.steps_add hsteps, hsteps', past_append]

theorem Yields.map {g : α → β} (hx : Yields host h names is m lo hi x Q)
    (hQ : ∀ s a, Q s a → R s (g a)) :
    Yields host h names is m lo hi (x >>= fun a => pure (g a)) R := by
  cases x with
  | error e => exact hx
  | ok a =>
    obtain ⟨s, hsteps, hfits, hagree, hq⟩ := hx
    exact ⟨s, hsteps, hfits, hagree, hQ s a hq⟩

/-- An assignment to a temporary. -/
theorem yields_temporary {n : Nat} {e : Expression} {r : Except Error Value}
    (hat : Stands b [.assign .mov (temporaryName n) e] m)
    (he : e.eval host .run (m.store, h) = Work.ofExcept r (m.store, h)) (hfits : Fits names m.store)
    (hn : temporaryName n ∈ names) :
    Yields host h names [.assign .mov (temporaryName n) e] m n (n + 1) r
      (fun s v => s.fetch (temporaryName n) = v) := by
  cases r with
  | error err => exact Exec.fails_mov hat.has hat.mode hat.running (.inl he)
  | ok v =>
    obtain ⟨s, hs, hfits'⟩ := exists_store hfits v hn
    refine ⟨s, Exec.steps_mov hat.has hat.mode hat.running he hs, hfits',
      agree_store hs (Nat.le_refl n) (by omega), ?_⟩
    simp only [Store.fetch, Store.get?_store hs, if_true]
    rfl

end

/-! ## Groups -/

section
variable {σ : Type} (host : Host σ) (h : σ) (names : List String) {b : Blocks} {t : Symbols}
  {limit : Nat} {s₀ : Store}

theorem Part.Agree.slotValue {i : Part} {n lo hi : Nat} {s s' : Store} (k : Agree lo hi s s')
    (hn : n + i.pairs ≤ lo) : i.slotValue t s₀ s' n = i.slotValue t s₀ s n := by
  cases i with
  | atom a => rfl
  | group p =>
    rw [Part.pairs] at hn
    have hother : ∀ j, lo ≤ j → j < hi → temporaryName n ≠ temporaryName j := by
      intro j hj _ heq
      have := temporaryName_injective heq
      omega
    simp only [Part.slotValue, Store.fetch, k _ hother]

mutual

theorem Part.runs (i : Part) {around : List Nat} {n : Nat} {m : Machine}
    (hat : Stands b (i.code t n) m) (husable : ∀ a ∈ i.atoms, a.Usable t limit)
    (hclear : i.Clear around n) (haround : ∀ k ∈ around, k < n)
    (hsince : Since around n s₀ m.store) (hfits : Fits names m.store)
    (hnames : ∀ k, n ≤ k → k < n + i.pairs → temporaryName k ∈ names) :
    Yields host h names (i.code t n) m n (n + i.pairs) (i.value t s₀)
      (fun s v => i.slotValue t s₀ s n = v) := by
  match i with
  | .atom a => exact ⟨m.store, rfl, hfits, .refl _ _ _, rfl⟩
  | .group p =>
    have hpairs : n + (Part.group p).pairs = n + 1 + p.pairs := by
      rw [Part.pairs, Nat.add_assoc]
    obtain ⟨hinner, hown⟩ := hclear
    rw [hpairs] at hnames ⊢
    rw [Part.atoms] at husable
    rw [Part.code] at hat ⊢
    have haround' : ∀ k ∈ n :: around, k < n + 1 := by
      intro k hk
      rcases List.mem_cons.1 hk with rfl | hk
      · omega
      · have := haround k hk
        omega
    have hruns := p.runs hat.left husable hinner haround' hsince.enter hfits
      (fun k _ _ => hnames k (by omega) (by omega))
    refine (hruns.mono (Nat.le_succ n) (Nat.le_refl _) fun s vs hagree hvs =>
      (⟨hagree, hvs⟩ : Agree (n + 1) (n + 1 + p.pairs) m.store s ∧
        p.slotValues t s₀ s (n + 1) = vs)).bind ?_
    rintro s vs hfits' - ⟨hagree, rfl⟩
    -- the names of the group are read as they were
    have hsame := (hsince.enter.agree haround' hagree (by omega)).fetch hown
    have heval := p.eval_tree host h (n := n + 1) husable hsame
    have hstep := yields_temporary (hat.right s) heval hfits' (hnames n (by omega) (by omega))
    exact hstep.mono (Nat.le_refl n) (by omega) fun _ _ _ hv => hv

/-- The instructions of the groups leave the values of the groups in their places.  By
induction on the phrase: the values of the operands wait in their temporaries, which the
groups behind them do not change. -/
theorem Phrase.runs (p : Phrase) {around : List Nat} {n : Nat} {m : Machine}
    (hat : Stands b (p.code t n) m) (husable : ∀ a ∈ p.atoms, a.Usable t limit)
    (hclear : p.InnerClear around n) (haround : ∀ k ∈ around, k < n)
    (hsince : Since around n s₀ m.store) (hfits : Fits names m.store)
    (hnames : ∀ k, n ≤ k → k < n + p.pairs → temporaryName k ∈ names) :
    Yields host h names (p.code t n) m n (n + p.pairs) (p.values t s₀)
      (fun s vs => p.slotValues t s₀ s n = vs) := by
  match p with
  | .last front i z =>
    rw [Phrase.atoms] at husable
    rw [Phrase.pairs] at hnames ⊢
    rw [Phrase.code] at hat ⊢
    rw [Phrase.values]
    have hruns := i.runs hat husable hclear haround hsince hfits hnames
    exact hruns.map fun s v hv => congrArg (fun v => [v]) hv
  | .more front i back sign rest =>
    rw [Phrase.atoms] at husable
    rw [Phrase.pairs] at hnames ⊢
    rw [Phrase.code] at hat ⊢
    rw [Phrase.values]
    obtain ⟨husablei, husablerest⟩ := List.forall_mem_append.1 husable
    obtain ⟨hcleari, hclearrest⟩ := hclear
    have hruns := i.runs hat.left husablei hcleari haround hsince hfits
      (fun k _ _ => hnames k (by omega) (by omega))
    have hhi : n + i.pairs ≤ n + (i.pairs + rest.pairs) := by omega
    refine (hruns.mono (Nat.le_refl n) hhi
      fun s v hagree hv => (⟨hagree, hv⟩ : Agree n (n + i.pairs) m.store s ∧
        i.slotValue t s₀ s n = v)).bind ?_
    rintro s v hfits' - ⟨hagree, rfl⟩
    have hrest := rest.runs (hat.right s) husablerest hclearrest
      (fun k hk => by have := haround k hk; omega) (hsince.agree haround hagree (by omega)) hfits'
      (fun k _ _ => hnames k (by omega) (by omega))
    have hwhole := hrest.mono (Nat.le_add_right n i.pairs) (Nat.le_of_eq (Nat.add_assoc n _ _))
      fun s' vs hagree' hvs => (⟨Part.Agree.slotValue hagree' (Nat.le_refl _), hvs⟩ :
        i.slotValue t s₀ s' n = i.slotValue t s₀ s n ∧
          rest.slotValues t s₀ s' (n + i.pairs) = vs)
    refine hwhole.map fun s' vs hvs => ?_
    obtain ⟨hv, rfl⟩ := hvs
    rw [Phrase.slotValues, hv]

end

end

end ScriptMachine.Phrases
