/-
  ScriptMachine.Proofs.Naming

  What a statement does to the names.  A command that succeeds leaves all names alone
  but those that it defines and the constants that it steps on the way
  (`Compile.redefines_command`), and so does a whole statement
  (`Compile.redefines_statement`).
-/

import ScriptMachine.Proofs.Feeding

namespace ScriptMachine

namespace Compile

variable {α : Type}

theorem Keeps.mono {R S : Compiler → Compiler → Prop} {x : Compile α} (hx : Keeps R x)
    (h : ∀ c c', R c c' → S c c') : Keeps S x :=
  fun c a c' hc => h c c' (hx c a c' hc)

/-! ## Steps that leave the names alone -/

/-- The words that give names a meaning; the others leave all names alone. -/
def defining : List Word :=
  [.var, .declare, .define, .defineCommand, .choose]

theorem sameNames_command {word : Word} (hword : word ∉ defining) (s : Scanner) :
    Keeps SameNames (command word s) := by
  cases word with
  | var | declare | define | defineCommand | choose => exact absurd (by decide) hword
  | caseOf =>
    exact (keeps_testValue .case _ s).bind fun _ => keeps_modify fun _ => ⟨rfl, rfl⟩
  | default | breakOut => exact keeps_modify fun _ => ⟨rfl, rfl⟩
  | endChoose =>
    exact (keeps_ask _).bind fun _ => Keeps.bind (keeps_modify fun _ => ⟨rfl, rfl⟩) fun _ =>
      keeps_emit _
  | _ => exact keeps_branching (by decide) s

/-! ## Names that change their meaning -/

/-- The settings stay, and so does the meaning of every name but for those of the set
`N`, which are not reserved, and for constants that are stepped.  A new meaning is a
command only where symbols are copied. -/
structure Redefines (copies : Prop) (N : String → Prop) (c c' : Compiler) : Prop where
  config : c'.config = c.config
  names : ∀ name, c'.symbols.get? name = c.symbols.get? name ∨
    (∃ k k', c.symbols.get? name = some (.constant k) ∧
      c'.symbols.get? name = some (.constant k')) ∨
    N name ∧ Symbols.isReserved name = false ∧ ∃ s, c'.symbols.get? name = some s ∧
      ∀ word, s = .command word → copies

variable {copies : Prop} {N : String → Prop}

theorem SameNames.redefines {c c' : Compiler} (h : SameNames c c') : Redefines copies N c c' :=
  ⟨h.config, fun _ => .inl (by rw [h.symbols])⟩

theorem Redefines.trans {c d e : Compiler} (h : Redefines copies N c d)
    (k : Redefines copies N d e) : Redefines copies N c e := by
  refine ⟨k.config.trans h.config, fun name => ?_⟩
  rcases k.names name with heq | ⟨m, m', hm, hm'⟩ | hnew
  · rw [heq]
    exact h.names name
  · rcases h.names name with heq | ⟨l, _, hl, _⟩ | ⟨hN, hfree, _⟩
    · exact .inr (.inl ⟨m, m', heq ▸ hm, hm'⟩)
    · exact .inr (.inl ⟨l, m', hl, hm'⟩)
    · exact .inr (.inr ⟨hN, hfree, _, hm', fun _ hcommand => by cases hcommand⟩)
  · exact .inr (.inr hnew)

instance : Std.Refl (Redefines copies N) :=
  ⟨fun _ => ⟨rfl, fun _ => .inl rfl⟩⟩

instance : IsTrans Compiler (Redefines copies N) :=
  ⟨fun _ _ _ => Redefines.trans⟩

/-- A variable stays one, unless its name is of the set. -/
theorem Redefines.var {c c' : Compiler} (h : Redefines copies N c c') {name : String}
    (hname : ¬ N name) (hvar : c.symbols.get? name = some .var) :
    c'.symbols.get? name = some .var := by
  rcases h.names name with heq | ⟨_, _, hconstant, _⟩ | ⟨hN, _⟩
  · rw [heq, hvar]
  · rw [hvar] at hconstant
    cases hconstant
  · exact absurd hN hname

instance : Overlooks (Redefines copies N) :=
  ⟨fun _ _ _ _ => SameNames.redefines ⟨rfl, rfl⟩, fun _ _ _ => SameNames.redefines ⟨rfl, rfl⟩,
    fun _ _ _ => SameNames.redefines ⟨rfl, rfl⟩⟩

theorem redefines_of_sameNames {x : Compile α} (h : Keeps SameNames x) :
    Keeps (Redefines copies N) x :=
  h.mono fun _ _ => SameNames.redefines

theorem redefines_insert (c : Compiler) {t : Symbols} {name : String} {s : Symbol} (hname : N name)
    (hs : ∀ word, s = .command word → copies) (h : c.symbols.set name s = .ok t) :
    Redefines copies N c { c with symbols := t } := by
  obtain ⟨_, hfree, rfl⟩ := Symbols.set_eq_ok_iff.1 h
  refine ⟨rfl, fun other => ?_⟩
  by_cases heq : name = other
  · subst heq
    exact .inr (.inr ⟨hname, hfree, s, (Symbols.get?_insert ..).trans (if_pos rfl), hs⟩)
  · exact .inl ((Symbols.get?_insert ..).trans (if_neg heq))

theorem redefines_set {name : String} {s : Symbol} (hname : N name)
    (hs : ∀ word, s = .command word → copies) :
    Keeps (Redefines copies N) (onSymbols (·.set name s)) := by
  intro c a c' h
  obtain ⟨_, hset, rfl⟩ := onSymbols_eq_ok_iff.1 h
  exact redefines_insert c hname hs hset

/-- Stepping a constant. -/
theorem redefines_stepped {c c' : Compiler} {word : String} {constant : Constant} {t : Scanner}
    {step : Int64} {r : Constant × Scanner}
    (h : (match constant with
      | .number n => do
        onSymbols fun symbols => .ok (symbols.insert word (.constant (.number (n + step))))
        return (constant, t)
      | .text _ => throw (.of (.constantNotNumeric word)) : Compile (Constant × Scanner)) c =
        .ok r c')
    (hword : c.symbols.get? word = some (.constant constant)) : Redefines copies N c c' := by
  cases constant with
  | text s => exact absurd h throw_ne_ok
  | number n =>
    obtain ⟨_, d, hstep, hreturn⟩ := bind_eq_ok_iff.1 h
    obtain ⟨_, rfl⟩ := pure_eq_ok_iff.1 hreturn
    obtain ⟨_, hinsert, rfl⟩ := onSymbols_eq_ok_iff.1 hstep
    cases hinsert
    refine ⟨rfl, fun other => ?_⟩
    by_cases heq : word = other
    · subst heq
      exact .inr (.inl ⟨_, _, hword, (Symbols.get?_insert ..).trans (if_pos rfl)⟩)
    · exact .inl ((Symbols.get?_insert ..).trans (if_neg heq))

theorem redefines_constantValue (s : Scanner) :
    Keeps (Redefines copies N) (constantValue s) := by
  refine (keeps_required _ _).bind fun r => ?_
  dsimp only
  split
  · split
    · exact keeps_pure _
    · exact keeps_throw _
  · intro c a c' h
    obtain ⟨_, _, hget, hrest⟩ := bind_eq_ok_iff.1 h
    obtain ⟨rfl, rfl⟩ := get_eq_ok_iff.1 hget
    generalize hsymbol : Symbols.get? _ r.1 = symbol at hrest
    match symbol with
    | none => exact absurd hrest throw_ne_ok
    | some (.constant constant) =>
      generalize Scanner.operator? _ _ = operator at hrest
      match operator with
      | none =>
        obtain ⟨_, rfl⟩ := pure_eq_ok_iff.1 hrest
        exact Std.Refl.refl _
      | some (spelling, t) =>
        dsimp only at hrest
        split at hrest
        · rw [pure_bind] at hrest
          exact redefines_stepped hrest hsymbol
        · rw [pure_bind] at hrest
          exact redefines_stepped hrest hsymbol
        · exact absurd hrest throw_ne_ok
    | some (.command _) | some (.function ..) | some .var => exact absurd hrest throw_ne_ok

/-! ## Commands -/

/-- The name that a command gives a meaning; the scanner stands behind the word. -/
def Names (word : Word) (s : Scanner) (name : String) : Prop :=
  match word with
  | .var => ∃ cs t, (s.skip blanks).word? ('=' :: blanks) = some (cs, t) ∧ name = String.ofList cs
  | .declare | .define | .defineCommand =>
    ∃ cs t, (s.skip blanks).word? blanks = some (cs, t) ∧ name = String.ofList cs
  | .choose => name = caseName
  | _ => False

/-- A step that starts with a word that must be there. -/
theorem redefines_required_bind {missing : Cause} {word : Option (List Char × Scanner)}
    {f : String × Scanner → Compile α}
    (hf : ∀ cs t, word = some (cs, t) → Keeps (Redefines copies N) (f (String.ofList cs, t))) :
    Keeps (Redefines copies N) (required missing word >>= f) := by
  intro c a c' h
  obtain ⟨⟨name, t⟩, d, hrequired, h⟩ := bind_eq_ok_iff.1 h
  obtain ⟨cs, hword, hname, rfl⟩ := required_eq_ok hrequired
  dsimp only at hword hname
  subst hname
  exact hf cs t hword _ _ _ h

theorem redefines_declareFunction {s : Scanner} (hN : ∀ name, Names .declare s name → N name) :
    Keeps (Redefines copies N) (declareFunction s) := by
  refine redefines_required_bind fun cs t hword => ?_
  have hset : ∀ (comments : String) (code : UInt16) (params : List Param) (u : Scanner),
      Keeps (Redefines copies N) (do
        ofExcept u.expectEnd
        comment comments
        onSymbols (·.set (String.ofList cs) (.function code params))) := fun _ _ _ _ =>
    (keeps_ofExcept _).bind fun _ => (keeps_comment _).bind fun _ =>
      redefines_set (hN _ ⟨cs, t, hword, rfl⟩) (by simp)
  refine redefines_required_bind fun ds u _ => (keeps_ofExcept _).bind fun params =>
    (redefines_constantValue _).bind fun r => (keeps_ofExcept _).bind fun code => ?_
  dsimp only
  split
  · split
    · exact Keeps.bind (keeps_modify fun _ => SameNames.redefines ⟨rfl, rfl⟩) fun _ =>
        (keeps_pure _).bind fun _ => hset _ _ _ _
    · exact (keeps_throw _).bind fun _ => hset _ _ _ _
  · exact (keeps_pure _).bind fun _ => hset _ _ _ _

theorem redefines_defineConstant {s : Scanner} (hN : ∀ name, Names .define s name → N name) :
    Keeps (Redefines copies N) (defineConstant s) := by
  refine redefines_required_bind fun cs t hword => ?_
  have hset : ∀ q : Constant × Scanner, Keeps (Redefines copies N) (do
      ofExcept q.2.expectEnd
      comment ("define " ++ String.ofList cs ++ " " ++ q.1.shown)
      onSymbols (·.set (String.ofList cs) (.constant q.1))) := fun q =>
    (keeps_ofExcept _).bind fun _ => (keeps_comment _).bind fun _ =>
      redefines_set (hN _ ⟨cs, t, hword, rfl⟩) (by simp)
  dsimp only
  split
  · split
    · exact (keeps_pure _).bind hset
    · exact (keeps_throw _).bind hset
  · exact (redefines_constantValue _).bind hset

/-- Copying is what gives a new name the meaning of a command. -/
theorem redefines_copySymbol {s : Scanner} (hcopies : copies)
    (hN : ∀ name, Names .defineCommand s name → N name) :
    Keeps (Redefines copies N) (copySymbol s) := by
  refine redefines_required_bind fun cs t hword => redefines_required_bind fun ds u _ =>
    (keeps_ofExcept _).bind fun _ => (keeps_comment _).bind fun _ => ?_
  intro c a c' h
  obtain ⟨_, hcopy, rfl⟩ := onSymbols_eq_ok_iff.1 h
  unfold Symbols.copy at hcopy
  split at hcopy
  · exact redefines_insert c (hN _ ⟨cs, t, hword, rfl⟩) (fun _ _ => hcopies) hcopy
  · cases hcopy

theorem redefines_enterChoose {s : Scanner} (hN : ∀ name, Names .choose s name → N name) :
    Keeps (Redefines copies N) (enterChoose s) := by
  refine (keeps_emit _).bind fun _ => Keeps.bind ?_ fun _ =>
    redefines_of_sameNames ((keeps_ask _).bind fun l => (sameNames_onSwitchEnds _).bind fun _ =>
      (sameNames_onStructures _).bind fun _ => keeps_countSwitch.bind fun _ =>
      keeps_modify fun _ => ⟨rfl, rfl⟩)
  intro c a c' h
  obtain ⟨symbols, hsymbols, rfl⟩ := onSymbols_eq_ok_iff.1 h
  split at hsymbols
  · cases hsymbols
    exact Std.Refl.refl _
  · exact redefines_insert c (hN _ rfl) (by simp) hsymbols

theorem redefines_command {word : Word} {s : Scanner} (hcopies : word = .defineCommand → copies)
    (hN : ∀ name, Names word s name → N name) : Keeps (Redefines copies N) (command word s) := by
  cases word with
  | var =>
    refine redefines_required_bind fun cs t hword => ?_
    exact (redefines_set (hN _ ⟨cs, t, hword, rfl⟩) (by simp)).bind fun _ =>
      (keeps_comment _).bind fun _ => keeps_emit _
  | declare => exact redefines_declareFunction hN
  | define => exact redefines_defineConstant hN
  | defineCommand => exact redefines_copySymbol (hcopies rfl) hN
  | choose => exact redefines_enterChoose hN
  | _ => exact redefines_of_sameNames (sameNames_command (by decide) s)

/-! ## Statements -/

/-- The part of a statement that its first word decides. -/
theorem redefines_headed {head : String} {s : Scanner} {c c' : Compiler}
    (hcommand : ∀ word, c.symbols.get? head = some (.command word) →
      (word = .defineCommand → copies) ∧ ∀ name, Names word s name → N name)
    (h : (match c.symbols.get? head with
      | some (.command word) => command word s
      | some (.function code params) => do
        let _ ← emit (·.call code params s)
      | some .var => emit (·.assignment head s)
      | some (.constant _) => throw (.of (.constantStatement head))
      | none => throw (.of (.undefined head)) : Compile Unit) c = .ok () c') :
    Redefines copies N c c' := by
  cases hsymbol : c.symbols.get? head with
  | none =>
    rw [hsymbol] at h
    exact absurd h throw_ne_ok
  | some symbol =>
    rw [hsymbol] at h
    cases symbol with
    | command word =>
      obtain ⟨hcopies, hnames⟩ := hcommand word hsymbol
      exact redefines_command hcopies hnames _ _ _ h
    | function code params =>
      have hcall : Keeps SameNames (do let _ ← emit (·.call code params s)) :=
        (keeps_emit _).bind fun _ => keeps_pure ()
      exact redefines_of_sameNames hcall _ _ _ h
    | var => exact keeps_emit _ _ _ _ h
    | constant => exact absurd h throw_ne_ok

/-- A statement leaves all names alone but for its first word, where that becomes a
variable without being declared, and the name that its command defines. -/
theorem redefines_statement {text : List Char} {c c' : Compiler}
    (hcommand : ∀ head s word, head? ('%' :: headStop) text c = .ok (some (head, s)) c →
      c.symbols.get? head = some (.command word) →
      (word = .defineCommand → copies) ∧ ∀ name, Names word s name → N name)
    (hauto : ∀ head s, head? ('%' :: headStop) text c = .ok (some (head, s)) c →
      c.symbols.contains head = false → isAutoVariable c.config head = true → N head)
    (h : statement text c = .ok () c') : Redefines copies N c c' := by
  obtain ⟨r, _, hhead, h₁⟩ := bind_eq_ok_iff.1 h
  obtain rfl := head?_eq_ok hhead
  cases r with
  | none =>
    obtain ⟨_, rfl⟩ := pure_eq_ok_iff.1 h₁
    exact Std.Refl.refl _
  | some r =>
    obtain ⟨head, s⟩ := r
    obtain ⟨_, _, hget, h₂⟩ := bind_eq_ok_iff.1 h₁
    obtain ⟨rfl, rfl⟩ := get_eq_ok_iff.1 hget
    dsimp only at h₂
    split at h₂
    · -- the first word becomes a variable, so the statement is no command
      rename_i hnew
      rw [Bool.and_eq_true, Bool.not_eq_true'] at hnew
      obtain ⟨_, d, hset, h₃⟩ := bind_eq_ok_iff.1 h₂
      obtain ⟨_, _, hget, h₄⟩ := bind_eq_ok_iff.1 h₃
      obtain ⟨rfl, rfl⟩ := get_eq_ok_iff.1 hget
      refine (redefines_set (hauto head s hhead hnew.1 hnew.2) (by simp) _ _ _ hset).trans
        (redefines_headed (fun word hword => ?_) h₄)
      obtain ⟨symbols, hsymbols, rfl⟩ := onSymbols_eq_ok_iff.1 hset
      obtain ⟨_, _, rfl⟩ := Symbols.set_eq_ok_iff.1 hsymbols
      rw [Symbols.get?_insert, if_pos rfl] at hword
      cases hword
    · obtain ⟨_, _, hget, h₃⟩ := bind_eq_ok_iff.1 h₂
      obtain ⟨rfl, rfl⟩ := get_eq_ok_iff.1 hget
      exact redefines_headed (fun word hword => hcommand head s word hhead hword) h₃

end Compile

end ScriptMachine
