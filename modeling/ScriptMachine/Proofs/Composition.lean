/-
  ScriptMachine.Proofs.Composition

  Properties of a step that its parts pass on to it.  The steps of the compiler are put
  together from a few small ones; so a property that holds of these, and of two steps in a
  row when it holds of both, holds of every command, statement, line and table.  The
  property is asked at a state: it may depend on how the step ends there
  (`Compositional.statement`, `CompositionalAll.lines`).

  No step but reporting looks at the listing or at the diagnostics (`Compiler.silent`), and
  the symbols change in two ways only (`Symbols.Becomes`).
-/

import ScriptMachine.Proofs.Feeding

namespace ScriptMachine

/-- What one step makes of the symbols: it leaves them, sets a name that may be set, or
steps a constant. -/
inductive Symbols.Becomes (t : Symbols) : Symbols → Prop where
  | same : Becomes t t
  | named {u : Symbols} {name : String} {s : Symbol} (h : t.set name s = .ok u) : Becomes t u
  | stepped {name : String} {k : Constant} (h : t.get? name = some (.constant k)) (n : Int64) :
    Becomes t (t.insert name (.constant (.number n)))

/-- The state without its listing and the words of its diagnostics. -/
def Compiler.silent (c : Compiler) : Compiler :=
  { c with
    program := { c.program with listing := { enabled := false } }
    diagnostics := c.diagnostics.map fun _ => "" }

namespace Compile

variable {α β : Type}

-- ============================================================================
-- However a step ends
-- ============================================================================

/-- The state in which a step ends, well or not. -/
def after (x : Compile α) (c : Compiler) : Compiler :=
  match x c with
  | .ok _ d | .error _ d => d

/-- Two steps in a row; the second is taken only where the first went well. -/
theorem after_bind {x : Compile α} {f : α → Compile β} {c : Compiler} {P : Compiler → Prop}
    (hok : ∀ a d, x c = .ok a d → P (after (f a) d)) (herror : ∀ e d, x c = .error e d → P d) :
    P (after (x >>= f) c) := by
  simp only [after, bind, EStateM.bind]
  cases hr : x c with
  | ok a d => exact hok a d hr
  | error e d => exact herror e d hr

/-- However the step ends, `R` relates the state before it to the state behind it. -/
def Always (R : Compiler → Compiler → Prop) (x : Compile α) : Prop :=
  ∀ c, R c (after x c)

section
variable {R : Compiler → Compiler → Prop} [Std.Refl R]

theorem always_pure (a : α) : Always R (pure a) :=
  fun c => Std.Refl.refl c

theorem always_throw (e : Error) : Always R (throw e : Compile α) :=
  fun c => Std.Refl.refl c

theorem always_get : Always R get :=
  fun c => Std.Refl.refl c

theorem always_ofExcept (x : Except Error α) : Always R (ofExcept x) := by
  intro c
  cases x <;> exact Std.Refl.refl c

theorem always_ask (f : Compiler → Except Error α) : Always R (ask f) := by
  intro c
  unfold after ask
  cases f c <;> exact Std.Refl.refl c

end

/-- A step on a stack of the state puts the stack back however it ends. -/
theorem always_onStack {R : Compiler → Compiler → Prop} {stack : Compiler → Stack β}
    {put : Compiler → Stack β → Compiler} (hput : ∀ c s, R c (put c s))
    (x : EStateM Error (Stack β) α) : Always R (onStack stack put x) := by
  intro c
  unfold after onStack
  cases x (stack c) <;> exact hput c _

section
variable {R : Compiler → Compiler → Prop} [IsTrans Compiler R]

theorem rel_after_bind {x : Compile α} {f : α → Compile β} {c : Compiler} (hx : R c (after x c))
    (hf : ∀ a d, x c = .ok a d → R d (after (f a) d)) : R c (after (x >>= f) c) := by
  refine after_bind (fun a d hr => ?_) fun e d hr => ?_ <;> simp only [after, hr] at hx
  · exact IsTrans.trans _ _ _ hx (hf a d hr)
  · exact hx

theorem Always.bind {x : Compile α} {f : α → Compile β} (h : Always R x)
    (hf : ∀ a, Always R (f a)) : Always R (x >>= f) :=
  fun c => rel_after_bind (h c) fun a d _ => hf a d

theorem Always.forM [Std.Refl R] {f : α → Compile Unit} (h : ∀ a, Always R (f a)) (as : List α) :
    Always R (as.forM f) := by
  induction as with
  | nil => exact always_pure ()
  | cons a as ih => exact (h a).bind fun _ => ih

end

theorem after_inFragment (text : List Char) (x : Compile α) (c : Compiler) :
    after (inFragment text x) c = after x c := by
  unfold after inFragment
  cases x c <;> rfl

-- ============================================================================
-- Properties of small steps
-- ============================================================================

/-- The change counts the structures and notes where a line stands in them; it leaves
everything else alone and looks neither at the listing nor at the diagnostics. -/
structure Counts (f : Compiler → Compiler) : Prop where
  rest : ∀ c, f c = { c with
    inCase := (f c).inCase
    switchesInIf := (f c).switchesInIf
    ifDepth := (f c).ifDepth
    switchDepth := (f c).switchDepth
    whileEnd := (f c).whileEnd }
  silent : ∀ c, f c.silent = (f c).silent

/-- The small steps of statements have the property, but for the mark of a function; and two
steps in a row have it when both have. -/
structure Compositional (P : (α : Type) → Compile α → Compiler → Prop) : Prop where
  of_pure : ∀ {α : Type} (a : α) c, P α (pure a) c
  of_throw : ∀ {α : Type} e c, P α (throw e) c
  of_bind : ∀ {α β : Type} {x : Compile α} {f : α → Compile β} {c : Compiler}, P α x c →
    (∀ a d, x c = .ok a d → P β (f a) d) → P β (x >>= f) c
  of_get : ∀ {β : Type} {f : Compiler → Compile β} {c : Compiler}, (∀ d, f d.silent = f d) →
    P β (f c) c → P β (get >>= f) c
  of_ask : ∀ {α : Type} {f : Compiler → Except Error α}, (∀ d, f d.silent = f d) →
    ∀ c, P α (ask f) c
  of_modify : ∀ {f : Compiler → Compiler}, Counts f → ∀ c, P Unit (modify f) c
  of_emit : ∀ {α : Type} (f : Context → Draft α) c, P α (emit f) c
  of_comment : ∀ s c, P Unit (comment s) c
  of_jumpTo : ∀ l c, P Unit (jumpTo l) c
  of_onSymbols : ∀ {f : Symbols → Except Error Symbols} {c : Compiler},
    (∀ t, f c.symbols = .ok t → c.symbols.Becomes t) → P Unit (onSymbols f) c
  of_onSwitchEnds : ∀ {α : Type} (x : EStateM Error (Stack Label) α) c, P α (onSwitchEnds x) c
  of_onWhileEnds : ∀ {α : Type} (x : EStateM Error (Stack (Option Label)) α) c,
    P α (onWhileEnds x) c
  of_push : ∀ word c, P Unit (onStructures (Stack.push word)) c

/-- The steps of whole lines have the property as well: the bookkeeping of blocks and
naming a statement in an error. -/
structure CompositionalAll (P : (α : Type) → Compile α → Compiler → Prop) : Prop
    extends Compositional P where
  of_onBlocks : ∀ word f c, P Unit (onBlocks word f) c
  of_onStructures : ∀ {α : Type} (x : EStateM Error (Stack Word) α) c, P α (onStructures x) c
  of_inFragment : ∀ {α : Type} {x : Compile α} {c : Compiler} (text : List Char), P α x c →
    P α (inFragment text x) c

-- ============================================================================
-- Relations between the states before and behind a step
-- ============================================================================

/-- What the small steps of statements leave alone, but for the symbols and the structures. -/
structure SameFrame (c c' : Compiler) : Prop where
  config : c'.config = c.config
  blocks : c'.blocks = c.blocks
  blockChecked : c'.blockChecked = c.blockChecked
  file : c'.file = c.file

section
variable {R : Compiler → Compiler → Prop} [Std.Refl R] [IsTrans Compiler R]

/-- A relation holds over every statement, however it ends, if it holds where the symbols
and the structures are the same, over a change of the symbols and over a push. -/
theorem Compositional.of_rel
    (hsame : ∀ {c c'}, SameFrame c c' → c'.symbols = c.symbols →
      c'.structures = c.structures → R c c')
    (hsymbols : ∀ c t, c.symbols.Becomes t → R c { c with symbols := t })
    (hpush : ∀ word c, R c (after (onStructures (Stack.push word)) c)) :
    Compositional fun _ x c => R c (after x c) where
  of_pure a := always_pure a
  of_throw e := always_throw e
  of_bind := rel_after_bind
  of_get _ h := h
  of_ask _ := always_ask _
  of_modify {f} h c := by
    have hrest : after (modify f : Compile Unit) c = f c := rfl
    rw [hrest, h.rest]
    exact hsame ⟨rfl, rfl, rfl, rfl⟩ rfl rfl
  of_emit f c := by
    unfold after emit
    dsimp only
    cases (f c.context).outcome <;> exact hsame ⟨rfl, rfl, rfl, rfl⟩ rfl rfl
  of_comment _ _ := hsame ⟨rfl, rfl, rfl, rfl⟩ rfl rfl
  of_jumpTo _ _ := hsame ⟨rfl, rfl, rfl, rfl⟩ rfl rfl
  of_onSymbols {f c} h := by
    unfold after onSymbols
    cases ht : f c.symbols with
    | ok t => exact hsymbols c t (h t ht)
    | error e => exact Std.Refl.refl c
  of_onSwitchEnds := always_onStack fun _ _ => hsame ⟨rfl, rfl, rfl, rfl⟩ rfl rfl
  of_onWhileEnds := always_onStack fun _ _ => hsame ⟨rfl, rfl, rfl, rfl⟩ rfl rfl
  of_push := hpush

/-- A relation that does not look at blocks and structures holds over every line, however
it ends. -/
theorem CompositionalAll.of_rel
    (hsame : ∀ {c c'}, c'.config = c.config → c'.blockChecked = c.blockChecked →
      c'.file = c.file → c'.symbols = c.symbols → R c c')
    (hsymbols : ∀ c t, c.symbols.Becomes t → R c { c with symbols := t }) :
    CompositionalAll fun _ x c => R c (after x c) where
  toCompositional := .of_rel (fun h hsymbols _ => hsame h.config h.blockChecked h.file hsymbols)
    hsymbols fun _ => always_onStack (by exact fun _ _ => hsame rfl rfl rfl rfl) _
  of_onBlocks word f c := by
    unfold after onBlocks
    cases f c.blocks c.program.position <;> exact hsame rfl rfl rfl rfl
  of_onStructures := always_onStack fun _ _ => hsame rfl rfl rfl rfl
  of_inFragment {α x c} text h := by
    rwa [after_inFragment]

end

-- ============================================================================
-- What has the property
-- ============================================================================

variable {P : (α : Type) → Compile α → Compiler → Prop}

namespace Compositional

section
variable (hP : Compositional P)
include hP

theorem bind {x : Compile α} {f : α → Compile β} (hx : ∀ c, P α x c) (hf : ∀ a c, P β (f a) c)
    (c : Compiler) : P β (x >>= f) c :=
  hP.of_bind (hx c) fun a d _ => hf a d

theorem get {f : Compiler → Compile β} (hf : ∀ d, f d.silent = f d) (h : ∀ d c, P β (f d) c)
    (c : Compiler) : P β (MonadState.get >>= f) c :=
  hP.of_get hf (h c c)

theorem ofExcept (x : Except Error α) (c : Compiler) : P α (ofExcept x) c := by
  cases x with
  | ok a => exact hP.of_pure a c
  | error e => exact hP.of_throw e c

theorem goto (l : Label) (c : Compiler) : P Unit (goto l) c :=
  hP.bind (hP.of_emit _) (fun _ => hP.of_jumpTo l) c

theorem setName (name : String) (s : Symbol) (c : Compiler) : P Unit (onSymbols (·.set name s)) c :=
  hP.of_onSymbols fun _ h => .named h

-- ============================================================================
-- Commands
-- ============================================================================

theorem testValue (opcode : Opcode) (missing : Cause) (s : Scanner) (c : Compiler) :
    P Unit (testValue opcode missing s) c :=
  hP.bind (hP.of_emit _) (fun _ => hP.bind (hP.of_ask fun _ => rfl) fun l => hP.of_jumpTo l) c

theorem condition (word : Word) (s : Scanner) (c : Compiler) : P Unit (condition word s) c :=
  hP.testValue .cmp _ s c

theorem enterIf (s : Scanner) (c : Compiler) : P Unit (enterIf s) c :=
  hP.bind (hP.condition _ s) (fun _ => hP.of_modify (by exact ⟨fun _ => rfl, fun _ => rfl⟩)) c

theorem enterWhile (s : Scanner) (c : Compiler) : P Unit (enterWhile s) c :=
  hP.get (fun _ => rfl) (fun _ => hP.bind (hP.of_onWhileEnds _) fun _ => hP.bind (hP.of_emit _)
    fun _ => hP.bind (hP.of_ask fun _ => rfl) fun l =>
      hP.bind (hP.of_modify (by exact ⟨fun _ => rfl, fun _ => rfl⟩)) fun _ => hP.of_jumpTo l) c

theorem leaveWhile (c : Compiler) : P Unit leaveWhile c :=
  hP.bind (hP.of_onWhileEnds _) (fun _ => hP.of_modify (by exact ⟨fun _ => rfl, fun _ => rfl⟩)) c

theorem exitWhile (c : Compiler) : P Unit exitWhile c := by
  refine hP.get (fun _ => rfl) (fun d c => ?_) c
  split
  · exact hP.goto _ c
  · exact hP.of_throw _ c

theorem countSwitch (c : Compiler) : P Unit countSwitch c := by
  refine hP.get (fun _ => rfl) (fun d c => ?_) c
  split
  · split
    · split
      · exact hP.of_throw _ c
      · exact hP.of_modify (by exact ⟨fun _ => rfl, fun _ => rfl⟩) c
    · exact hP.of_pure () c
  · exact hP.of_pure () c

theorem enterChoose (s : Scanner) (c : Compiler) : P Unit (enterChoose s) c := by
  have hcase : ∀ c, P Unit (onSymbols fun symbols =>
      if symbols.contains caseName then .ok symbols else symbols.set caseName .var) c := by
    refine fun c => hP.of_onSymbols fun t h => ?_
    split at h
    · cases h
      exact .same
    · exact .named h
  exact hP.bind (hP.of_emit _) (fun _ => hP.bind hcase fun _ => hP.bind (hP.of_ask fun _ => rfl)
    fun _ => hP.bind (hP.of_onSwitchEnds _) fun _ => hP.bind (hP.of_push _) fun _ =>
      hP.bind hP.countSwitch fun _ => hP.of_modify (by exact ⟨fun _ => rfl, fun _ => rfl⟩)) c

theorem enterCase (s : Scanner) (c : Compiler) : P Unit (enterCase s) c :=
  hP.bind (hP.testValue .case _ s)
    (fun _ => hP.of_modify (by exact ⟨fun _ => rfl, fun _ => rfl⟩)) c

theorem leaveChoose (c : Compiler) : P Unit leaveChoose c :=
  hP.bind (hP.of_ask fun _ => rfl) (fun _ =>
    hP.bind (hP.of_modify (by exact ⟨fun _ => rfl, fun _ => rfl⟩)) fun _ => hP.of_emit _) c

theorem required (missing : Cause) (word : Option (List Char × Scanner)) (c : Compiler) :
    P (String × Scanner) (required missing word) c := by
  unfold Compile.required
  split
  · exact hP.of_pure _ c
  · exact hP.of_throw _ c

theorem defineVariable (s : Scanner) (c : Compiler) : P Unit (defineVariable s) c :=
  hP.bind (hP.required _ _) (fun r => hP.bind (hP.setName r.1 .var) fun _ =>
    hP.bind (hP.of_comment _) fun _ => hP.of_emit _) c

/-- The end of a constant's value; the constant is the meaning of the word. -/
theorem stepped (word : String) (constant : Constant) (c : Compiler) (t : Scanner)
    (step : Int64) :
    c.symbols.get? word = some (.constant constant) →
    P (Constant × Scanner) (match constant with
      | .number n => do
        onSymbols fun symbols => .ok (symbols.insert word (.constant (.number (n + step))))
        return (constant, t)
      | .text _ => throw (.of (.constantNotNumeric word))) c := by
  intro hword
  cases constant with
  | text s => exact hP.of_throw _ c
  | number n =>
    refine hP.of_bind (hP.of_onSymbols fun t h => ?_) fun _ d _ => hP.of_pure _ d
    cases h
    exact .stepped hword _

theorem constantValue (s : Scanner) (c : Compiler) :
    P (Constant × Scanner) (constantValue s) c := by
  refine hP.bind (hP.required _ _) (fun r c => ?_) c
  dsimp only
  split
  · split
    · exact hP.of_pure _ c
    · exact hP.of_throw _ c
  · refine hP.of_get (fun _ => rfl) ?_
    split
    · rename_i constant hword
      split
      · exact hP.of_pure _ c
      · split
        · rw [pure_bind]
          exact hP.stepped _ _ _ _ _ hword
        · rw [pure_bind]
          exact hP.stepped _ _ _ _ _ hword
        · exact hP.of_bind (hP.of_throw _ c) fun _ _ h => absurd h throw_ne_ok
    · exact hP.of_throw _ c
    · exact hP.of_throw _ c

theorem defineConstant (s : Scanner) (c : Compiler) : P Unit (defineConstant s) c := by
  refine hP.bind (hP.required _ _) (fun r c => ?_) c
  have hset : ∀ (q : Constant × Scanner) c, P Unit (do
      Compile.ofExcept q.2.expectEnd
      comment ("define " ++ r.1 ++ " " ++ q.1.shown)
      onSymbols (·.set r.1 (.constant q.1))) c := fun q =>
    hP.bind (hP.ofExcept _) fun _ => hP.bind (hP.of_comment _) fun _ => hP.setName _ _
  dsimp only
  split
  · split
    · exact hP.bind (hP.of_pure _) hset c
    · exact hP.bind (hP.of_throw _) hset c
  · exact hP.bind (hP.constantValue _) hset c

theorem declareFunction (hmark : ∀ code c, P Unit
      (modify fun c => { c with blockChecked := c.blockChecked.insert code }) c)
    (s : Scanner) (c : Compiler) : P Unit (declareFunction s) c := by
  refine hP.bind (hP.required _ _) (fun name => hP.bind (hP.required _ _) fun shape =>
    hP.bind (hP.ofExcept _) fun params => hP.bind (hP.constantValue _) fun constant =>
      hP.bind (hP.ofExcept _) fun code c => ?_) c
  have hset : ∀ (t : Scanner) c, P Unit (do
      Compile.ofExcept t.expectEnd
      comment ("declare " ++ name.1 ++ " " ++ shape.1 ++ " " ++ toString code.toNat)
      onSymbols (·.set name.1 (.function code params))) c := fun t =>
    hP.bind (hP.ofExcept _) fun _ => hP.bind (hP.of_comment _) fun _ => hP.setName _ _
  dsimp only
  split
  · split
    · exact hP.bind (hmark code) (fun _ => hP.bind (hP.of_pure _) hset) c
    · exact hP.bind (hP.of_throw _) hset c
  · exact hP.bind (hP.of_pure _) hset c

theorem copySymbol (s : Scanner) (c : Compiler) : P Unit (copySymbol s) c := by
  refine hP.bind (hP.required _ _) (fun name => hP.bind (hP.required _ _) fun existing =>
    hP.bind (hP.ofExcept _) fun _ => hP.bind (hP.of_comment _) fun _ c =>
      hP.of_onSymbols fun t h => ?_) c
  unfold Symbols.copy at h
  split at h
  · exact .named h
  · cases h

/-- Every command has the property, if declarations have it. -/
theorem command {word : Word} {s : Scanner} {c : Compiler}
    (hdeclare : word = .declare → P Unit (Compile.declareFunction s) c) :
    P Unit (command word s) c := by
  cases word with
  | declare => exact hdeclare rfl
  | block =>
    exact hP.of_ask (f := fun c => .error (.of (.blockBreak c.blocks.info))) (fun _ => rfl) c
  | stop => exact hP.bind (hP.of_emit _) (fun _ => hP.ofExcept _) c
  | var => exact hP.defineVariable s c
  | ifThen => exact hP.enterIf s c
  | elseIf => exact hP.condition _ s c
  | otherwise => exact hP.ofExcept _ c
  | endIf | breakOut | default => exact hP.of_modify (by exact ⟨fun _ => rfl, fun _ => rfl⟩) c
  | define => exact hP.defineConstant s c
  | defineCommand => exact hP.copySymbol s c
  | choose => exact hP.enterChoose s c
  | caseOf => exact hP.enterCase s c
  | endChoose => exact hP.leaveChoose c
  | whileDo => exact hP.enterWhile s c
  | endWhile => exact hP.leaveWhile c
  | exitWhile => exact hP.exitWhile c

-- ============================================================================
-- Statements
-- ============================================================================

theorem head? (stop line : List Char) (c : Compiler) :
    P (Option (String × Scanner)) (head? stop line) c := by
  unfold Compile.head?
  dsimp only
  split
  · exact hP.of_pure _ c
  · exact hP.of_throw _ c
  · exact hP.of_pure _ c

/-- The part of a statement that its first word decides. -/
theorem headed {head : String} {s : Scanner} {c : Compiler}
    (hdeclare : c.symbols.get? head = some (.command .declare) →
      P Unit (Compile.declareFunction s) c) :
    P Unit (match c.symbols.get? head with
      | some (.command word) => Compile.command word s
      | some (.function code params) => do
        let _ ← emit (·.call code params s)
      | some .var => emit (·.assignment head s)
      | some (.constant _) => throw (.of (.constantStatement head))
      | none => throw (.of (.undefined head))) c := by
  cases hsymbol : c.symbols.get? head with
  | none => exact hP.of_throw _ c
  | some symbol =>
    cases symbol with
    | command word => exact hP.command fun hword => hdeclare (by rw [hsymbol, hword])
    | function => exact hP.bind (hP.of_emit _) (fun _ => hP.of_pure _) c
    | var => exact hP.of_emit _ c
    | constant => exact hP.of_throw _ c

/-- Every statement has the property, if it has it where it is a declaration. -/
theorem statement {text : List Char} {c : Compiler}
    (hdeclare : ∀ head s, Compile.head? ('%' :: headStop) text c = .ok (some (head, s)) c →
      c.symbols.get? head = some (.command .declare) → P Unit (Compile.declareFunction s) c) :
    P Unit (statement text) c := by
  refine hP.of_bind (hP.head? _ _ c) fun r d hhead => ?_
  obtain rfl := head?_eq_ok hhead
  cases r with
  | none => exact hP.of_pure _ d
  | some r =>
    refine hP.of_get (fun _ => rfl) ?_
    dsimp only
    split
    · -- the first word becomes a variable, so the statement is no declaration
      refine hP.of_bind (hP.setName _ _ d) fun _ e hset => hP.of_get (fun _ => rfl) ?_
      refine hP.headed fun hcommand => ?_
      obtain ⟨symbols, hsymbols, rfl⟩ := onSymbols_eq_ok_iff.1 hset
      obtain ⟨_, _, rfl⟩ := Symbols.set_eq_ok_iff.1 hsymbols
      rw [Symbols.get?_insert, if_pos rfl] at hcommand
      cases hcommand
    · exact hP.of_get (fun _ => rfl) (hP.headed (hdeclare r.1 r.2 hhead))

-- ============================================================================
-- Tables of names
-- ============================================================================

theorem enumNames (counter : Int64) (s : Scanner) (c : Compiler) :
    P Int64 (enumNames counter s) c := by
  fun_induction Compile.enumNames counter s generalizing c with
  | case1 => exact hP.of_pure _ c
  | case2 => exact hP.of_pure _ c
  | case3 => exact hP.of_pure _ c
  | case4 counter s word t hw hne hcomment ih => exact hP.bind (hP.setName _ _) (fun _ => ih) c

theorem tableNumber (word : Option (List Char × Scanner)) (c : Compiler) :
    P Int64 (tableNumber word) c := by
  unfold Compile.tableNumber
  dsimp only
  split
  · exact hP.of_pure _ c
  · exact hP.of_throw _ c

theorem enumLine (counter : Int64) (text : List Char) (c : Compiler) :
    P Int64 (enumLine counter text) c := by
  unfold Compile.enumLine
  dsimp only
  split
  · exact hP.of_pure _ c
  · exact hP.tableNumber _ c
  · exact hP.enumNames _ _ c

theorem tableLine (text : List Char) (c : Compiler) : P Unit (tableLine text) c := by
  unfold Compile.tableLine
  split
  · exact hP.bind (hP.tableNumber _) (fun n => hP.setName _ _) c
  · exact hP.of_pure () c

section
variable (hreporting : ∀ {α : Type} {x : Compile α} {c : Compiler} (f : Error → Error),
  P α x c → P α (reporting f x) c)
include hreporting

/-- All lines of an enumeration have the property, if reporting an error hands it on. -/
theorem enumLines (file : String) (number : Nat) (counter : Int64) (texts : List (List Char))
    (c : Compiler) : P Unit (enumLines file number counter texts) c := by
  induction texts generalizing number counter c with
  | nil => exact hP.of_pure () c
  | cons text rest ih =>
    exact hP.bind (fun c => hreporting _ (hP.enumLine counter text c)) (fun _ => ih _ _) c

theorem tableLines (file : String) (number : Nat) (texts : List (List Char)) (c : Compiler) :
    P Unit (tableLines file number texts) c := by
  induction texts generalizing number c with
  | nil => exact hP.of_pure () c
  | cons text rest ih =>
    exact hP.bind (fun c => hreporting _ (hP.tableLine text c)) (fun _ => ih _) c

end

end

end Compositional

-- ============================================================================
-- Lines
-- ============================================================================

namespace CompositionalAll

variable (hP : CompositionalAll P)
include hP

theorem openBlock (word : Word) (c : Compiler) : P Unit (openBlock word) c := by
  refine hP.bind (hP.of_onBlocks _ _) (fun _ c => ?_) c
  split
  · exact hP.of_onStructures _ c
  · exact hP.of_pure () c

theorem expectStructure (opener word : Word) (c : Compiler) :
    P Unit (expectStructure opener word) c :=
  hP.of_ask (fun _ => rfl) c

theorem nextBranch (word : Word) (c : Compiler) : P Unit (nextBranch word) c :=
  hP.bind (hP.expectStructure _ _) (fun _ => hP.bind (hP.of_ask fun _ => rfl) fun l =>
    hP.bind (hP.goto l) fun _ => hP.of_onBlocks _ _) c

theorem closeBlock (opener word : Word) (c : Compiler) : P Unit (closeBlock opener word) c := by
  refine hP.bind (hP.expectStructure _ _) (fun _ c => ?_) c
  have hrest : ∀ c, P Unit (do
      linkBlock word
      onBlocks word Blocks.close
      let _ ← onStructures Stack.pop
      if word = .endChoose then
        let _ ← onSwitchEnds Stack.pop) c := by
    refine hP.bind (hP.of_onBlocks _ _) fun _ => hP.bind (hP.of_onBlocks _ _) fun _ =>
      hP.bind (hP.of_onStructures _) fun _ c => ?_
    split
    · exact hP.bind (hP.of_onSwitchEnds _) (fun _ => hP.of_pure _) c
    · exact hP.of_pure () c
  dsimp only
  split
  · exact hP.bind (hP.of_ask fun _ => rfl) (fun l => hP.bind (hP.goto l) fun _ => hrest) c
  · exact hrest c

/-- The bookkeeping of every control word has the property. -/
theorem control (word : Word) (c : Compiler) : P Unit (control word) c := by
  cases word with
  | ifThen | whileDo | choose => exact hP.openBlock _ c
  | elseIf | otherwise => exact hP.nextBranch _ c
  | caseOf | default =>
    exact hP.bind (hP.expectStructure _ _) (fun _ => hP.of_onBlocks _ _) c
  | breakOut => exact hP.bind (hP.of_ask fun _ => rfl) (fun l => hP.goto l) c
  | endIf | endWhile | endChoose => exact hP.closeBlock _ _ c
  | _ => exact hP.of_pure () c

/-- What a line does before its statements has the property. -/
theorem opening (text : List Char) (c : Compiler) : P (List (List Char)) (opening text) c := by
  have hstatements : ∀ c, P (List (List Char))
      (do Compile.ofExcept (Source.statements (← get).config.stem text)) c :=
    hP.get (fun _ => rfl) fun _ => hP.ofExcept _
  refine hP.bind (hP.head? _ _) (fun r c => ?_) c
  split
  · exact hP.of_pure _ c
  · refine hP.get (fun _ => rfl) (fun d c => ?_) c
    dsimp only
    split
    · exact hP.bind (hP.of_ask fun _ => rfl)
        (fun _ => hP.bind (hP.control _) fun _ => hstatements) c
    · exact hstatements c
    · refine hP.get (fun _ => rfl) (fun d c => ?_) c
      split
      · exact hstatements c
      · exact hP.bind (hP.of_throw _) (fun _ => hstatements) c

theorem forM {f : α → Compile Unit} (h : ∀ a c, P Unit (f a) c) (as : List α) (c : Compiler) :
    P Unit (as.forM f) c := by
  induction as generalizing c with
  | nil => exact hP.of_pure () c
  | cons a as ih => exact hP.bind (h a) (fun _ => ih) c

/-- The part of a line that its statements are. -/
theorem statements (hmark : ∀ code c, P Unit
      (modify fun c => { c with blockChecked := c.blockChecked.insert code }) c)
    (text : List Char) (statements : List (List Char)) (c : Compiler) :
    P Unit (statements.forM fun s =>
      if Text.trim s = Text.trim text then statement s else inFragment s (statement s)) c := by
  refine hP.forM (fun s c => ?_) statements c
  have hs : P Unit (statement s) c :=
    hP.statement fun _ _ _ _ => hP.declareFunction hmark _ c
  split
  · exact hs
  · exact hP.of_inFragment s hs

/-- Every line has the property, if the mark of a function has it. -/
theorem line (hmark : ∀ code c, P Unit
      (modify fun c => { c with blockChecked := c.blockChecked.insert code }) c)
    (text : List Char) (c : Compiler) : P Unit (line text) c := by
  rw [line_eq]
  exact hP.bind (hP.opening text) (fun statements => hP.statements hmark text statements) c

/-- All lines have the property, if the mark of a function has it and reporting an error
hands it on. -/
theorem lines (hmark : ∀ code c, P Unit
      (modify fun c => { c with blockChecked := c.blockChecked.insert code }) c)
    (hreporting : ∀ {α : Type} {x : Compile α} {c : Compiler} (f : Error → Error),
      P α x c → P α (reporting f x) c)
    (file : String) (number : Nat) (texts : List (List Char)) (c : Compiler) :
    P Unit (lines file number texts) c := by
  induction texts generalizing number c with
  | nil => exact hP.of_pure () c
  | cons text rest ih =>
    exact hP.bind (fun c => hreporting _ (hP.line hmark text c)) (fun _ => ih _) c

end CompositionalAll

end Compile

end ScriptMachine
