/-
  ScriptMachine.Proofs.Columns.Statements

  Which errors statements have, and where they report them.  Each step of the compiler over a
  line either goes well, with the temporaries named as before, or fails with an error that
  fits the line (`Compile.FitsWhere`).  The bookkeeping of blocks gives no columns at all and
  asks for no permission; of commands and statements, what is scanned stays inside the line,
  the columns of an error come from there, and where calls are permitted no error says that
  they are not (`Compile.fitsPermitted_statement`).
-/

import ScriptMachine.Proofs.Choices.Places
import ScriptMachine.Proofs.Columns.Expressions

namespace ScriptMachine

variable {α β : Type} {line : List Char} {p : Prop}

-- ============================================================================
-- Parts of the state
-- ============================================================================

theorem OpenBlock.fits_nextLabel (o : OpenBlock) : FitsAny line p o.nextLabel := by
  unfold nextLabel
  split
  · exact fits_error_of nofun
  · trivial

namespace Blocks

theorem fits_innermost (b : Blocks) : FitsAny line p b.innermost := by
  unfold innermost
  split
  · trivial
  · exact fits_error_of nofun

theorem fits_start (b : Blocks) (address : Nat) : FitsAny line p (b.start address) := by
  unfold start
  split
  · exact fits_error_of nofun
  · trivial

theorem fits_link (b : Blocks) (address : Nat) : FitsAny line p (b.link address) :=
  b.fits_innermost.bind fun o _ => o.fits_nextLabel.bind fun _ _ => trivial

theorem fits_close (b : Blocks) (address : Nat) : FitsAny line p (b.close address) :=
  b.fits_innermost.bind fun _ _ => trivial

theorem fits_startLabel (b : Blocks) : FitsAny line p b.startLabel :=
  b.fits_innermost.bind fun _ _ => trivial

theorem fits_endLabel (b : Blocks) : FitsAny line p b.endLabel :=
  b.fits_innermost.bind fun _ _ => trivial

theorem fits_nextLabel (b : Blocks) : FitsAny line p b.nextLabel :=
  b.fits_innermost.bind fun o _ => o.fits_nextLabel

end Blocks

theorem Stack.fits_of_push {a : α} {s s' : Stack α} {e : Error} (h : push a s = .error e s') :
    e.Fits line p := by
  rw [eq_of_push_eq_error h]
  exact Error.fits_of nofun

theorem Stack.fits_of_pop {s s' : Stack α} {e : Error} (h : pop s = .error e s') :
    e.Fits line p := by
  rw [eq_of_pop_eq_error h]
  exact Error.fits_of nofun

theorem Symbols.fits_set (t : Symbols) (name : String) (s : Symbol) :
    FitsAny line p (t.set name s) := by
  unfold set
  split
  · exact fits_error_of nofun
  · split
    · exact fits_error_of nofun
    · trivial

theorem Symbols.fits_copy (t : Symbols) (name existing : String) :
    FitsAny line p (t.copy name existing) := by
  unfold copy
  split
  · exact t.fits_set name _
  · exact fits_error_of nofun

theorem Param.fits_shape (cs : List Char) : FitsAny line p (Param.shape cs) := by
  unfold Param.shape
  induction cs with
  | nil => trivial
  | cons c cs ih =>
    rw [List.mapM_cons]
    refine FitsLine.bind (Q := fun _ => True) ?_ fun p _ => ih.bind fun _ _ => trivial
    split
    · trivial
    · exact fits_error_of nofun

namespace Compiler

/-- The one check that fails for the place fails only where calls are not permitted. -/
theorem fits_checkSwitch (c : Compiler) (word : Option Word) :
    FitsAny line c.Permits (c.checkSwitch word) := by
  by_cases hperm : c.Permits
  · rw [checkSwitch_of_permits hperm]
    trivial
  · have hnone {cause : Cause} : (Error.of cause).Fits line c.Permits :=
      ⟨rfl, .inl (Columns.inside_zero line), fun h => absurd h hperm⟩
    unfold checkSwitch
    split
    · trivial
    · split
      · trivial
      · trivial
      · trivial
      · exact hnone
      · exact hnone

theorem fitsCalls_context (c : Compiler) : c.context.FitsCalls line c.Permits := by
  intro code
  refine (c.fits_checkSwitch none).bind fun _ _ => ?_
  split
  · exact fits_error_of nofun
  · trivial

end Compiler

namespace Compile

-- ============================================================================
-- Small steps
-- ============================================================================

/-- From every state with this stem of temporaries, the step ends in one with the same stem
and a result that satisfies `Q`, or with an error that fits the line.  Calls count as
permitted in the states that satisfy `S`. -/
def FitsWhere (S : Compiler → Prop) (stem : String) (line : List Char) (Q : α → Prop)
    (x : Compile α) : Prop :=
  ∀ c, c.config.stem = stem →
    match x c with
    | .ok a d => d.config.stem = stem ∧ Q a
    | .error e _ => e.Fits line (S c)

/-- The step never fails for the place where it stands. -/
abbrev FitsAlways (stem : String) (line : List Char) (Q : α → Prop) (x : Compile α) : Prop :=
  FitsWhere (fun _ => True) stem line Q x

/-- Nothing is asked of the result. -/
abbrev FitsAnyway (stem : String) (line : List Char) (x : Compile α) : Prop :=
  FitsAlways stem line (fun _ => True) x

/-- The step fails for the place where it stands only where calls are not permitted. -/
abbrev FitsPermitted (stem : String) (line : List Char) (Q : α → Prop) (x : Compile α) : Prop :=
  FitsWhere Compiler.Permits stem line Q x

variable {stem : String} {S T : Compiler → Prop} {Q : α → Prop} {R : β → Prop}

theorem FitsWhere.mono {x : Compile α} (h : FitsWhere S stem line Q x) (hT : ∀ c, T c → S c) :
    FitsWhere T stem line Q x := by
  intro c hc
  have hx := h c hc
  cases hr : x c <;> rw [hr] at hx
  · exact hx
  · exact hx.mono (hT c)

theorem FitsAlways.permitted {x : Compile α} (h : FitsAlways stem line Q x) :
    FitsPermitted stem line Q x :=
  h.mono fun _ _ => trivial

/-- The second step stands where the first one has led. -/
theorem FitsWhere.bind_of {x : Compile α} {f : α → Compile β} (hx : FitsWhere S stem line Q x)
    (hstep : ∀ c a d, S c → x c = .ok a d → T d)
    (hf : ∀ a, Q a → FitsWhere T stem line R (f a)) : FitsWhere S stem line R (x >>= f) := by
  intro c hc
  have h := hx c hc
  simp only [Bind.bind, EStateM.bind]
  cases hr : x c with
  | ok a d =>
    rw [hr] at h
    have hnext := hf a h.2 d h.1
    dsimp only
    cases hs : f a d <;> rw [hs] at hnext
    · exact hnext
    · exact hnext.mono fun hS => hstep c a d hS hr
  | error e d =>
    rw [hr] at h
    exact h

theorem FitsWhere.bind {x : Compile α} {f : α → Compile β} (hx : FitsWhere S stem line Q x)
    (hf : ∀ a, Q a → FitsAlways stem line R (f a)) : FitsWhere S stem line R (x >>= f) :=
  hx.bind_of (fun _ _ _ _ _ => trivial) hf

/-- A step of which only the failures matter in front of another one. -/
theorem FitsWhere.andThen {x : Compile α} {f : α → Compile β}
    (hx : FitsWhere S stem line (fun _ => True) x) (hf : ∀ a, FitsAlways stem line R (f a)) :
    FitsWhere S stem line R (x >>= f) :=
  hx.bind fun a _ => hf a

/-- In front of a step that needs a permission. -/
theorem FitsWhere.behind {x : Compile α} {f : α → Compile β} (hx : FitsAlways stem line Q x)
    (hplace : Keeps SamePlace x) (hf : ∀ a, Q a → FitsPermitted stem line R (f a)) :
    FitsPermitted stem line R (x >>= f) :=
  hx.permitted.bind_of (fun c a d hc h => (hplace c a d h).permits.2 hc) hf

theorem FitsWhere.get {f : Compiler → Compile β}
    (h : ∀ c, c.config.stem = stem → FitsWhere S stem line R (f c)) :
    FitsWhere S stem line R (MonadState.get >>= f) :=
  fun c hc => h c hc c hc

theorem fitsAlways_pure {a : α} (h : Q a) : FitsAlways stem line Q (pure a) :=
  fun _ hc => ⟨hc, h⟩

theorem fitsAlways_throw {e : Error} (h : e.Fits line True) :
    FitsAlways stem line Q (throw e : Compile α) :=
  fun _ _ => h

theorem fitsAlways_throw_of {cause : Cause} (h : cause.kind ≠ .illegalInChoose) :
    FitsAlways stem line Q (throw (.of cause) : Compile α) :=
  fitsAlways_throw (Error.fits_of h)

theorem fitsAnyway_modify {f : Compiler → Compiler} (h : ∀ c, (f c).config = c.config) :
    FitsAnyway stem line (modify f) :=
  fun c hc => ⟨(congrArg Config.stem (h c)).trans hc, trivial⟩

theorem fitsAnyway_comment (s : String) : FitsAnyway stem line (comment s) :=
  fun _ hc => ⟨hc, trivial⟩

theorem fitsAnyway_jumpTo (l : Label) : FitsAnyway stem line (jumpTo l) :=
  fun _ hc => ⟨hc, trivial⟩

theorem fitsAlways_ofExcept {x : Except Error α} (h : FitsLine line True Q x) :
    FitsAlways stem line Q (ofExcept x) := by
  intro c hc
  cases x with
  | ok a => exact ⟨hc, h⟩
  | error e => exact h

theorem fits_ask {f : Compiler → Except Error α} (h : ∀ c, FitsLine line (S c) Q (f c)) :
    FitsWhere S stem line Q (ask f) := by
  intro c hc
  have hf := h c
  unfold ask
  cases hr : f c <;> rw [hr] at hf
  · exact hf
  · exact ⟨hc, hf⟩

theorem fits_emit {f : Context → Draft α}
    (h : ∀ c : Compiler, FitsLine line (S c) Q (f c.context).outcome) :
    FitsWhere S stem line Q (emit f) := by
  intro c hc
  have hf := h c
  unfold emit
  dsimp only
  cases hr : (f c.context).outcome <;> rw [hr] at hf
  · exact hf
  · exact ⟨hc, hf⟩

/-- A draft with calls. -/
theorem fitsPermitted_emit {f : Context → Draft α}
    (h : ∀ ctx p, ctx.FitsCalls line p → FitsLine line p Q (f ctx).outcome) :
    FitsPermitted stem line Q (emit f) :=
  fits_emit fun c => h c.context c.Permits c.fitsCalls_context

theorem fitsAnyway_onSymbols {f : Symbols → Except Error Symbols}
    (h : ∀ t, FitsAny line True (f t)) : FitsAnyway stem line (onSymbols f) := by
  intro c hc
  have hf := h c.symbols
  unfold onSymbols
  cases hr : f c.symbols <;> rw [hr] at hf
  · exact hf
  · exact ⟨hc, trivial⟩

theorem fitsAnyway_onBlocks (word : Word) {f : Blocks → Nat → Except Error (Label × Blocks)}
    (h : ∀ b address, FitsAny line True (f b address)) :
    FitsAnyway stem line (onBlocks word f) := by
  intro c hc
  have hf := h c.blocks c.program.position
  unfold onBlocks
  cases hr : f c.blocks c.program.position <;> rw [hr] at hf
  · exact hf
  · exact ⟨hc, trivial⟩

/-- Of a step on a stack of the state only its own errors matter, where putting the stack
back leaves the settings alone. -/
theorem fitsAnyway_onStack {stack : Compiler → Stack β} {put : Compiler → Stack β → Compiler}
    (hput : ∀ c s, (put c s).config = c.config) {x : EStateM Error (Stack β) α}
    (h : ∀ s e s', x s = .error e s' → e.Fits line True) :
    FitsAnyway stem line (onStack stack put x) := by
  intro c hc
  unfold onStack
  cases hr : x (stack c) with
  | ok a s => exact ⟨(congrArg Config.stem (hput c s)).trans hc, trivial⟩
  | error e s => exact h _ e s hr

theorem fitsAnyway_onStructures {x : EStateM Error (Stack Word) α}
    (h : ∀ s e s', x s = .error e s' → e.Fits line True) :
    FitsAnyway stem line (onStructures x) :=
  fitsAnyway_onStack (by exact fun _ _ => rfl) h

theorem fitsAnyway_onSwitchEnds {x : EStateM Error (Stack Label) α}
    (h : ∀ s e s', x s = .error e s' → e.Fits line True) :
    FitsAnyway stem line (onSwitchEnds x) :=
  fitsAnyway_onStack (by exact fun _ _ => rfl) h

theorem fitsAnyway_onWhileEnds {x : EStateM Error (Stack (Option Label)) α}
    (h : ∀ s e s', x s = .error e s' → e.Fits line True) :
    FitsAnyway stem line (onWhileEnds x) :=
  fitsAnyway_onStack (by exact fun _ _ => rfl) h

theorem fitsAnyway_goto (l : Label) : FitsAnyway stem line (goto l) :=
  (fits_emit fun _ => Draft.fits_put _).andThen fun _ => fitsAnyway_jumpTo l

theorem fitsAnyway_setName (name : String) (s : Symbol) :
    FitsAnyway stem line (onSymbols (·.set name s)) :=
  fitsAnyway_onSymbols fun t => t.fits_set name s

/-- Of steps in a row, nothing is said of the place: each can take a permission away from the
next one. -/
theorem fits_forM {f : α → Compile Unit} {as : List α}
    (h : ∀ a ∈ as, FitsWhere (fun _ => False) stem line (fun _ => True) (f a)) :
    FitsWhere (fun _ => False) stem line (fun _ => True) (as.forM f) := by
  induction as with
  | nil => exact (fitsAlways_pure trivial).mono fun _ _ => trivial
  | cons a as ih =>
    obtain ⟨hfirst, hrest⟩ := List.forall_mem_cons.1 h
    exact hfirst.bind_of (fun _ _ _ h _ => h.elim) fun _ _ => ih hrest

-- ============================================================================
-- Bookkeeping of blocks
-- ============================================================================

theorem fitsAnyway_expectStructure (opener word : Word) :
    FitsAnyway stem line (expectStructure opener word) := by
  refine fits_ask fun c => ?_
  split
  · split
    · trivial
    · exact fits_error_of nofun
  · exact fits_error_of nofun

theorem fitsAnyway_linkBlock (word : Word) : FitsAnyway stem line (linkBlock word) :=
  fitsAnyway_onBlocks word fun b address => b.fits_link address

theorem fitsAnyway_closeBlock (opener word : Word) :
    FitsAnyway stem line (closeBlock opener word) := by
  have hrest : FitsAnyway stem line (do
      linkBlock word
      onBlocks word Blocks.close
      let _ ← onStructures Stack.pop
      if word = .endChoose then
        let _ ← onSwitchEnds Stack.pop) := by
    refine (fitsAnyway_linkBlock word).andThen fun _ =>
      (fitsAnyway_onBlocks word fun b address => b.fits_close address).andThen fun _ =>
      (fitsAnyway_onStructures fun _ _ _ => Stack.fits_of_pop).andThen fun _ => ?_
    split
    · exact (fitsAnyway_onSwitchEnds fun _ _ _ => Stack.fits_of_pop).andThen fun _ =>
        fitsAlways_pure trivial
    · exact fitsAlways_pure trivial
  refine (fitsAnyway_expectStructure _ _).andThen fun _ => ?_
  dsimp only
  split
  · exact (fits_ask fun c => c.blocks.fits_startLabel).andThen
      fun l => (fitsAnyway_goto l).andThen fun _ => hrest
  · exact hrest

theorem fitsAnyway_control (word : Word) : FitsAnyway stem line (control word) := by
  have hopen : FitsAnyway stem line (openBlock word) := by
    refine (fitsAnyway_onBlocks word fun b address => b.fits_start address).andThen fun _ => ?_
    split
    · exact fitsAnyway_onStructures fun _ _ _ => Stack.fits_of_push
    · exact fitsAlways_pure trivial
  cases word with
  | ifThen | whileDo | choose => exact hopen
  | elseIf | otherwise =>
    exact (fitsAnyway_expectStructure _ _).andThen fun _ =>
      (fits_ask fun c => c.blocks.fits_endLabel).andThen fun l =>
      (fitsAnyway_goto l).andThen fun _ => fitsAnyway_linkBlock _
  | caseOf | default =>
    exact (fitsAnyway_expectStructure _ _).andThen fun _ => fitsAnyway_linkBlock _
  | breakOut =>
    refine FitsWhere.andThen (fits_ask fun c => ?_) fun l => fitsAnyway_goto l
    split
    · trivial
    · exact fits_error_of nofun
  | endIf | endWhile | endChoose => exact fitsAnyway_closeBlock _ _
  | _ => exact fitsAlways_pure trivial

-- ============================================================================
-- Conditions, loops and choices
-- ============================================================================

theorem fitsAnyway_countSwitch : FitsAnyway stem line countSwitch := by
  refine .get fun c _ => ?_
  split
  · split
    · split
      · exact fitsAlways_throw_of nofun
      · exact fitsAnyway_modify fun _ => rfl
    · exact fitsAlways_pure trivial
  · exact fitsAlways_pure trivial

section
variable {s : Scanner} (hs : s.At line)
include hs

theorem fitsPermitted_lastValue (opcode : Opcode) {missing : Cause}
    (hmissing : missing.kind ≠ .illegalInChoose) :
    FitsPermitted stem line (fun _ => True) (emit (·.lastValue opcode missing s)) :=
  fitsPermitted_emit fun _ _ hcall => Context.fits_lastValue hcall opcode hmissing hs

theorem fitsPermitted_testValue (opcode : Opcode) {missing : Cause}
    (hmissing : missing.kind ≠ .illegalInChoose) :
    FitsPermitted stem line (fun _ => True) (testValue opcode missing s) :=
  (fitsPermitted_lastValue hs opcode hmissing).andThen fun _ =>
    FitsWhere.andThen (fits_ask fun c => c.blocks.fits_nextLabel) fitsAnyway_jumpTo

theorem fitsPermitted_condition (word : Word) :
    FitsPermitted stem line (fun _ => True) (condition word s) :=
  fitsPermitted_testValue hs _ (by nofun)

theorem fitsPermitted_enterIf : FitsPermitted stem line (fun _ => True) (enterIf s) :=
  (fitsPermitted_condition hs _).andThen fun _ => fitsAnyway_modify fun _ => rfl

theorem fitsPermitted_enterWhile : FitsPermitted stem line (fun _ => True) (enterWhile s) := by
  refine .get fun _ _ => .behind (fitsAnyway_onWhileEnds fun _ _ _ => Stack.fits_of_push)
    (keeps_onWhileEnds _) fun _ _ => (fitsPermitted_lastValue hs _ (by nofun)).andThen fun _ =>
    FitsWhere.andThen (fits_ask fun c => c.blocks.fits_endLabel) fun l => ?_
  exact (fitsAnyway_modify (by exact fun _ => rfl)).andThen fun _ => fitsAnyway_jumpTo l

theorem fitsPermitted_enterCase : FitsPermitted stem line (fun _ => True) (enterCase s) :=
  (fitsPermitted_testValue hs _ (by nofun)).andThen fun _ => fitsAnyway_modify fun _ => rfl

theorem fitsPermitted_enterChoose : FitsPermitted stem line (fun _ => True) (enterChoose s) := by
  refine FitsWhere.andThen (fitsPermitted_emit fun ctx p hcall => ?_) fun _ =>
    FitsWhere.andThen (fitsAnyway_onSymbols fun t => ?_) fun _ =>
    FitsWhere.andThen (fits_ask fun c => c.blocks.fits_endLabel) fun l =>
    (fitsAnyway_onSwitchEnds fun _ _ _ => Stack.fits_of_push).andThen fun _ =>
    (fitsAnyway_onStructures fun _ _ _ => Stack.fits_of_push).andThen fun _ =>
    fitsAnyway_countSwitch.andThen fun _ => fitsAnyway_modify fun _ => rfl
  · exact Draft.fits_put_bind _ (Draft.fits_put_bind _ (Draft.fits_put_bind _
      (Draft.fits_put_bind _ (Context.fits_value_bind hcall hs (fun _ _ => rfl)
        fun _ _ _ => fits_error_of nofun))))
  · split
    · trivial
    · exact t.fits_set _ _

end

theorem fitsAnyway_leaveWhile : FitsAnyway stem line leaveWhile :=
  (fitsAnyway_onWhileEnds fun _ _ _ => Stack.fits_of_pop).andThen fun _ =>
    fitsAnyway_modify fun _ => rfl

theorem fitsAnyway_exitWhile : FitsAnyway stem line exitWhile := by
  refine .get fun c _ => ?_
  split
  · exact fitsAnyway_goto _
  · exact fitsAlways_throw_of nofun

theorem fitsAnyway_leaveChoose : FitsAnyway stem line leaveChoose := by
  refine FitsWhere.andThen (fits_ask fun c => ?_) fun _ =>
    (fitsAnyway_modify (by exact fun _ => rfl)).andThen fun _ => fits_emit fun _ => ?_
  · split
    · exact fits_error_of nofun
    · trivial
  · exact Draft.fits_put_bind _ (Draft.fits_put _)

-- ============================================================================
-- Definitions
-- ============================================================================

theorem fits_functionCode (k : Constant) : FitsAny line p (functionCode k) := by
  unfold functionCode
  split
  · split
    · trivial
    · exact fits_error_of nofun
  · exact fits_error_of nofun

section
variable {s : Scanner} (hs : s.At line)
include hs

/-- A word that is asked for leaves the scanner inside the line. -/
theorem fitsAlways_required {missing : Cause} (hmissing : missing.kind ≠ .illegalInChoose)
    (set stop : List Char) :
    FitsAlways stem line (fun r => r.2.At line)
      (required missing ((s.skip set).word? stop)) := by
  unfold required
  split
  · rename_i c cs t hw
    exact fitsAlways_pure ((hs.skip set).word? hw)
  · exact fitsAlways_throw_of hmissing

theorem fitsAnyway_expectEnd : FitsAnyway stem line (ofExcept s.expectEnd) :=
  fitsAlways_ofExcept (Scanner.fits_expectEnd hs)

theorem fitsPermitted_defineVariable :
    FitsPermitted stem line (fun _ => True) (defineVariable s) :=
  .behind (fitsAlways_required hs (by nofun) _ _) (keeps_required _ _) fun r hr =>
    .behind (fitsAnyway_setName r.1 .var) (samePlace_onSymbols _) fun _ _ =>
    .behind (fitsAnyway_comment _) (keeps_comment _) fun _ _ =>
    fitsPermitted_emit fun _ _ hcall => Context.fits_assignment hcall r.1 hr

/-- The end of a constant's value. -/
theorem fitsAlways_stepped (word : String) (constant : Constant) (step : Int64) :
    FitsAlways stem line (fun r => r.2.At line) (match constant with
      | .number n => do
        onSymbols fun symbols => .ok (symbols.insert word (.constant (.number (n + step))))
        return (constant, s)
      | .text _ => throw (.of (.constantNotNumeric word)) : Compile (Constant × Scanner)) := by
  cases constant with
  | text t => exact fitsAlways_throw_of nofun
  | number n => exact (fitsAnyway_onSymbols fun _ => by trivial).andThen fun _ => fitsAlways_pure hs

theorem fitsAlways_constantValue :
    FitsAlways stem line (fun r => r.2.At line) (constantValue s) := by
  refine (fitsAlways_required hs (by rintro ⟨⟩) _ _).bind fun r hr => ?_
  dsimp only
  split
  · split
    · exact fitsAlways_pure hr
    · exact fitsAlways_throw_of (by rintro ⟨⟩)
  · refine .get fun c _ => ?_
    split
    · split
      · exact fitsAlways_pure hr
      · rename_i hop
        have ht := hr.operator? hop
        split
        · rw [pure_bind]
          exact fitsAlways_stepped ht _ _ _
        · rw [pure_bind]
          exact fitsAlways_stepped ht _ _ _
        · exact (fitsAlways_throw_of (Q := fun _ => True) (by rintro ⟨⟩)).andThen fun _ =>
            fitsAlways_stepped ht _ _ _
    · exact fitsAlways_throw_of (by rintro ⟨⟩)
    · exact fitsAlways_throw_of (by rintro ⟨⟩)

theorem fitsAnyway_defineConstant : FitsAnyway stem line (defineConstant s) := by
  refine (fitsAlways_required hs (by nofun) _ _).bind fun r hr => ?_
  have hset (q : Constant × Scanner) (hq : q.2.At line) : FitsAnyway stem line (do
      ofExcept q.2.expectEnd
      comment ("define " ++ r.1 ++ " " ++ q.1.shown)
      onSymbols (·.set r.1 (.constant q.1))) :=
    (fitsAnyway_expectEnd hq).andThen fun _ => (fitsAnyway_comment _).andThen fun _ =>
      fitsAnyway_setName _ _
  have ht := hr.skip blanks
  dsimp only
  split
  · split
    · rename_i hd
      exact (fitsAlways_pure (Q := fun q => q.2.At line) (ht.delimited? hd)).bind hset
    · exact (fitsAlways_throw (Error.fits_inColumns (by nofun) ht.inside_lineEnd)).bind hset
  · exact (fitsAlways_constantValue ht).bind hset

theorem fitsAnyway_declareFunction : FitsAnyway stem line (declareFunction s) := by
  refine (fitsAlways_required hs (by nofun) _ _).bind fun name hname =>
    (fitsAlways_required hname (by nofun) _ _).bind fun shape hshape =>
    FitsWhere.bind (fitsAlways_ofExcept (Param.fits_shape _)) fun params _ =>
    (fitsAlways_constantValue hshape).bind fun constant hconstant =>
    FitsWhere.bind (fitsAlways_ofExcept (fits_functionCode _)) fun code _ => ?_
  have hset (t : Scanner) (ht : t.At line) : FitsAnyway stem line (do
      ofExcept t.expectEnd
      comment ("declare " ++ name.1 ++ " " ++ shape.1 ++ " " ++ toString code.toNat)
      onSymbols (·.set name.1 (.function code params))) :=
    (fitsAnyway_expectEnd ht).andThen fun _ => (fitsAnyway_comment _).andThen fun _ =>
      fitsAnyway_setName _ _
  have ht := hconstant.skip blanks
  dsimp only
  split
  · rename_i mark t hw
    split
    · exact (fitsAnyway_modify (by exact fun _ => rfl)).andThen fun _ =>
        (fitsAlways_pure (Q := fun t => t.At line) (ht.word? hw)).bind hset
    · exact (fitsAlways_throw_of (by nofun)).bind hset
  · exact (fitsAlways_pure (Q := fun t => t.At line) ht).bind hset

theorem fitsAnyway_copySymbol : FitsAnyway stem line (copySymbol s) :=
  (fitsAlways_required hs (by nofun) _ _).bind fun _ hname =>
    (fitsAlways_required hname (by nofun) _ _).bind fun _ hexisting =>
    (fitsAnyway_expectEnd hexisting).andThen fun _ => (fitsAnyway_comment _).andThen fun _ =>
    fitsAnyway_onSymbols fun t => t.fits_copy _ _

-- ============================================================================
-- Statements
-- ============================================================================

theorem fitsPermitted_command (word : Word) :
    FitsPermitted stem line (fun _ => True) (command word s) := by
  cases word with
  | block => exact fits_ask fun _ => fits_error_of (by nofun)
  | stop => exact FitsWhere.andThen (fits_emit fun _ => Draft.fits_put _) fun _ =>
      fitsAnyway_expectEnd hs
  | var => exact fitsPermitted_defineVariable hs
  | ifThen => exact fitsPermitted_enterIf hs
  | elseIf => exact fitsPermitted_condition hs _
  | otherwise => exact (fitsAnyway_expectEnd hs).permitted
  | endIf | breakOut | default => exact FitsAlways.permitted (fitsAnyway_modify fun _ => rfl)
  | declare => exact (fitsAnyway_declareFunction hs).permitted
  | define => exact (fitsAnyway_defineConstant hs).permitted
  | defineCommand => exact (fitsAnyway_copySymbol hs).permitted
  | choose => exact fitsPermitted_enterChoose hs
  | caseOf => exact fitsPermitted_enterCase hs
  | endChoose => exact fitsAnyway_leaveChoose.permitted
  | whileDo => exact fitsPermitted_enterWhile hs
  | endWhile => exact fitsAnyway_leaveWhile.permitted
  | exitWhile => exact fitsAnyway_exitWhile.permitted

end

/-- The first word of a line; where a stop stands in its place, it is reported. -/
theorem fitsAlways_head? {stop : List Char} (hstop : ∀ c ∈ stop, c.utf8Size = 1) :
    FitsAlways stem line (fun r => ∀ h ∈ r, h.2.At line) (head? stop line) := by
  have hs := (Scanner.at_ofLine line).skip blanks
  unfold head?
  dsimp only
  split
  · exact fitsAlways_pure nofun
  · rename_i t hw
    obtain ⟨rfl, c, rest, hrest, hc⟩ := Scanner.of_word?_nil hw
    exact fitsAlways_throw (Error.fits_inColumns nofun (hs.inside_next hrest (hstop c hc)))
  · rename_i head t hnil hw
    refine fitsAlways_pure fun h hh => ?_
    obtain rfl := Option.mem_some.1 hh
    exact hs.word? hw

theorem utf8Size_of_headStop (c : Char) (h : c ∈ '%' :: headStop) : c.utf8Size = 1 := by
  have hall : ('%' :: headStop).all (·.utf8Size == 1) = true := by decide
  exact beq_iff_eq.1 (List.all_eq_true.1 hall c h)

/-- The part of a statement that its first word decides. -/
theorem fitsPermitted_headed {s : Scanner} (hs : s.At line) (head : String) (c : Compiler) :
    FitsPermitted stem line (fun _ => True) (match c.symbols.get? head with
      | some (.command word) => command word s
      | some (.function code params) => do
        let _ ← emit (·.call code params s)
      | some .var => emit (·.assignment head s)
      | some (.constant _) => throw (.of (.constantStatement head))
      | none => throw (.of (.undefined head)) : Compile Unit) := by
  split
  · exact fitsPermitted_command hs _
  · exact FitsWhere.bind (fitsPermitted_emit fun _ _ hcall => Context.fits_call hcall _ _ hs)
      fun _ _ => fitsAlways_pure trivial
  · exact fitsPermitted_emit fun _ _ hcall => Context.fits_assignment hcall _ hs
  · exact (fitsAlways_throw_of (by nofun)).permitted
  · exact (fitsAlways_throw_of (by nofun)).permitted

/-- A statement fails with an error that fits its text, and where calls are permitted it does
not fail for its place. -/
theorem fitsPermitted_statement : FitsPermitted stem line (fun _ => True) (statement line) := by
  refine .behind (fitsAlways_head? utf8Size_of_headStop) (samePlace_head? _ _) fun r hr => ?_
  cases r with
  | none => exact (fitsAlways_pure trivial).permitted
  | some r =>
    have hs := hr r rfl
    refine .get fun c _ => ?_
    dsimp only
    split
    · exact .behind (fitsAnyway_setName _ _) (samePlace_onSymbols _) fun _ _ =>
        .get fun d _ => fitsPermitted_headed hs r.1 d
    · exact .get fun d _ => fitsPermitted_headed hs r.1 d

end Compile

end ScriptMachine
