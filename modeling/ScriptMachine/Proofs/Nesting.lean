/-
  ScriptMachine.Proofs.Nesting

  Open blocks and open structures.  `finish` looks at the structures, while the scopes of
  labels are the blocks; the two are kept at different moments of a line, and a line may
  fail in between.  However a step of the compiler ends, it leaves no more blocks without
  a structure than there were (`Compile.Covers`).  The one exception is a `choose`: its
  block is opened before its value is written and its structure is entered after that, so
  a line that does not get there abandons the block (`Compile.Abandons`).  Where no line
  does so, a program can only be finished when no block is open (`Compile.finish_complete`).
-/

import ScriptMachine.Proofs.Composition

namespace ScriptMachine

theorem Blocks.isComplete_iff {b : Blocks} : b.isComplete = true ↔ b.depth = 0 :=
  List.isEmpty_iff_length_eq_zero

namespace Compile

variable {α β : Type}

-- ============================================================================
-- Blocks and structures
-- ============================================================================

/-- As many blocks are open as before, no structure is closed, and the settings are the
same. -/
structure Stays (c c' : Compiler) : Prop where
  depth : c'.blocks.depth = c.blocks.depth
  size : c.structures.size ≤ c'.structures.size
  config : c'.config = c.config

/-- No more blocks are open without a structure than before. -/
def Covers (c c' : Compiler) : Prop :=
  c'.blocks.depth + c.structures.size ≤ c.blocks.depth + c'.structures.size

theorem stays_of_eq {c c' : Compiler} (hblocks : c'.blocks = c.blocks)
    (hstructures : c'.structures = c.structures) (hconfig : c'.config = c.config) : Stays c c' :=
  ⟨by rw [hblocks], by rw [hstructures], hconfig⟩

theorem Stays.covers {c c' : Compiler} (h : Stays c c') : Covers c c' := by
  have hdepth := h.depth
  have hsize := h.size
  unfold Covers
  omega

theorem covers_trans {c d e : Compiler} (h : Covers c d) (k : Covers d e) : Covers c e := by
  unfold Covers at *
  omega

instance : Std.Refl Stays :=
  ⟨fun _ => stays_of_eq rfl rfl rfl⟩

instance : IsTrans Compiler Stays :=
  ⟨fun _ _ _ h k =>
    ⟨k.depth.trans h.depth, Nat.le_trans h.size k.size, k.config.trans h.config⟩⟩

instance : Std.Refl Covers :=
  ⟨fun _ => Nat.le_refl _⟩

instance : IsTrans Compiler Covers :=
  ⟨fun _ _ _ => covers_trans⟩

theorem Always.covers {x : Compile α} (h : Always Stays x) : Always Covers x :=
  fun c => (h c).covers

/-! ## Steps on parts of the state -/

/-- A push enters the structure even where it reports an overflow. -/
theorem after_push (word : Word) (c : Compiler) :
    (after (onStructures (Stack.push word)) c).blocks = c.blocks ∧
      (after (onStructures (Stack.push word)) c).structures.size = c.structures.size + 1 := by
  by_cases h : c.structures.items.size + 1 ≤ Stack.limit <;>
    simp [after, onStructures, onStack, Stack.push, Stack.size, h]

theorem after_pop (c : Compiler) :
    (after (onStructures Stack.pop) c).blocks = c.blocks ∧
      c.structures.size ≤ (after (onStructures Stack.pop) c).structures.size + 1 := by
  unfold after onStructures onStack Stack.pop
  cases h : c.structures.top? with
  | none => exact ⟨rfl, Nat.le_succ _⟩
  | some w =>
    simp only [Stack.size, Array.size_pop, true_and]
    omega

theorem stays_push (word : Word) (c : Compiler) :
    Stays c (after (onStructures (Stack.push word)) c) := by
  obtain ⟨hblocks, hsize⟩ := after_push word c
  have hconfig : Always (fun c d => d.config = c.config) (onStructures (Stack.push word)) :=
    always_onStack (by exact fun _ _ => rfl) _
  exact ⟨by rw [hblocks], by omega, hconfig c⟩

/-- No small step of a statement opens or closes a block, closes a structure or changes the
settings. -/
theorem compositional_stays : Compositional fun _ x c => Stays c (after x c) :=
  .of_rel (fun h _ hstructures => stays_of_eq h.blocks hstructures h.config)
    (fun _ _ _ => stays_of_eq rfl rfl rfl) stays_push

theorem stays_onSwitchEnds (x : EStateM Error (Stack Label) α) : Always Stays (onSwitchEnds x) :=
  compositional_stays.of_onSwitchEnds x

theorem stays_goto (l : Label) : Always Stays (goto l) :=
  compositional_stays.goto l

/-! ## Bookkeeping of blocks -/

theorem stays_linkBlock (word : Word) : Always Stays (linkBlock word) := by
  intro c
  unfold after linkBlock
  cases h : onBlocks word Blocks.link c with
  | ok _ d =>
    obtain ⟨l, blocks, hlink, rfl⟩ := onBlocks_eq_ok_iff.1 h
    obtain ⟨o, rest, hopened, _, _, rfl⟩ := Blocks.link_eq_ok_iff.1 hlink
    exact ⟨by simp [Blocks.depth, hopened], Nat.le_refl _, rfl⟩
  | error e d =>
    rw [onBlocks_eq_error h]
    exact Std.Refl.refl c

/-- A block and its structure are opened together. -/
theorem covers_openBlock {word : Word} (hword : word ≠ .choose) :
    Always Covers (openBlock word) := by
  intro c
  unfold openBlock
  refine after_bind (fun _ d h => ?_) fun e d h => ?_
  · obtain ⟨l, blocks, hstart, rfl⟩ := onBlocks_eq_ok_iff.1 h
    obtain ⟨_, _, rfl⟩ := Blocks.start_eq_ok_iff.1 hstart
    rw [if_pos hword]
    obtain ⟨hblocks, hsize⟩ := after_push word { c with
      blocks := _, program := c.program.comment (word.spelling ++ " " ++ l.text) }
    rw [Covers, hblocks, hsize]
    simp only [Blocks.depth, Blocks.opened_record, List.length_cons]
    omega
  · rw [onBlocks_eq_error h]
    exact Std.Refl.refl c

/-- A block and a structure are closed together. -/
theorem covers_close (word : Word) : Always Covers (do
    onBlocks word Blocks.close
    onStructures Stack.pop) := by
  intro c
  refine after_bind (fun _ d h => ?_) fun e d h => ?_
  · obtain ⟨l, blocks, hclose, rfl⟩ := onBlocks_eq_ok_iff.1 h
    obtain ⟨o, rest, hopened, _, rfl⟩ := Blocks.close_eq_ok_iff.1 hclose
    obtain ⟨hblocks, hsize⟩ := after_pop { c with
      blocks := _, program := c.program.comment (word.spelling ++ " " ++ l.text) }
    rw [Covers, hblocks]
    simp only [Blocks.depth, Blocks.opened_record, hopened, List.length_cons] at hsize ⊢
    omega
  · rw [onBlocks_eq_error h]
    exact Std.Refl.refl c

theorem covers_closeBlock (opener word : Word) : Always Covers (closeBlock opener word) := by
  have hrest : Always Covers (do
      linkBlock word
      onBlocks word Blocks.close
      let _ ← onStructures Stack.pop
      if word = .endChoose then
        let _ ← onSwitchEnds Stack.pop) := by
    refine (stays_linkBlock word).covers.bind fun _ => ?_
    have hends : Always Covers (if word = .endChoose then (do let _ ← onSwitchEnds Stack.pop)
        else pure () : Compile Unit) := by
      split
      · exact (stays_onSwitchEnds _).covers.bind fun _ => always_pure _
      · exact always_pure _
    have h := (covers_close word).bind fun _ => hends
    rwa [bind_assoc] at h
  refine (always_ask _).bind fun _ => ?_
  dsimp only
  split
  · exact (always_ask _).bind fun l => (stays_goto l).covers.bind fun _ => hrest
  · exact hrest

/-- The bookkeeping of every control word but `choose`. -/
theorem covers_control {word : Word} (hword : word ≠ .choose) : Always Covers (control word) := by
  cases word with
  | choose => exact absurd rfl hword
  | ifThen | whileDo => exact covers_openBlock (by decide)
  | elseIf | otherwise =>
    exact (always_ask _).bind fun _ => (always_ask _).bind fun l =>
      (stays_goto l).covers.bind fun _ => (stays_linkBlock _).covers
  | caseOf | default => exact (always_ask _).bind fun _ => (stays_linkBlock _).covers
  | breakOut => exact (always_ask _).bind fun l => (stays_goto l).covers
  | endIf | endWhile | endChoose => exact covers_closeBlock _ _
  | _ => exact always_pure ()

/-! ## Statements -/

theorem stays_statement (text : List Char) : Always Stays (statement text) := fun c =>
  compositional_stays.statement fun _ _ _ _ =>
    compositional_stays.declareFunction (fun _ _ => stays_of_eq rfl rfl rfl) _ c

-- ============================================================================
-- Lines
-- ============================================================================

/-- The first word of the line is a name of `choose`. -/
def Chooses (text : List Char) (c : Compiler) : Prop :=
  ∃ head s, head? headStop text c = .ok (some (head, s)) c ∧
    c.symbols.get? head = some (.command .choose)

/-- The line is a `choose` that opens its block and does not come to enter its structure. -/
def Abandons (text : List Char) (c : Compiler) : Prop :=
  Chooses text c ∧ c.blocks.depth < (after (line text) c).blocks.depth ∧
    (after (line text) c).structures.size = c.structures.size

theorem always_head? {R : Compiler → Compiler → Prop} [Std.Refl R] (stop line : List Char) :
    Always R (head? stop line) := by
  unfold head?
  dsimp only
  split
  · exact always_pure _
  · exact always_throw _
  · exact always_pure _

/-- What a line does before its statements, unless it is a `choose`. -/
theorem covers_opening {text : List Char} {c : Compiler} (h : ¬ Chooses text c) :
    Covers c (after (opening text) c) := by
  have hstatements : Always Covers (do ofExcept (Source.statements (← get).config.stem text)) :=
    always_get.bind fun c => always_ofExcept _
  refine rel_after_bind (always_head? _ _ c) fun r d hhead => ?_
  obtain rfl := head?_eq_ok hhead
  cases r with
  | none => exact always_pure _ _
  | some r =>
    refine rel_after_bind (always_get _) fun e f hget => ?_
    obtain ⟨rfl, rfl⟩ := get_eq_ok_iff.1 hget
    dsimp only
    split
    · rename_i word hsymbol
      have hword : word ≠ .choose := by
        rintro rfl
        exact h ⟨r.1, r.2, hhead, hsymbol⟩
      exact ((always_ask _).bind fun _ => (covers_control hword).bind fun _ => hstatements) _
    · exact hstatements _
    · refine (always_get.bind fun d => ?_ : Always Covers _) _
      split
      · exact hstatements
      · exact (always_throw _).bind fun _ => hstatements

/-- At most one more block is open, and the structures are the same. -/
structure Opens (c c' : Compiler) : Prop where
  depth : c'.blocks.depth ≤ c.blocks.depth + 1
  structures : c'.structures = c.structures

theorem opens_control_choose (c : Compiler) : Opens c (after (control .choose) c) := by
  refine after_bind (fun _ d h => ?_) fun e d h => ?_
  · obtain ⟨l, blocks, hstart, rfl⟩ := onBlocks_eq_ok_iff.1 h
    obtain ⟨_, _, rfl⟩ := Blocks.start_eq_ok_iff.1 hstart
    exact ⟨Nat.le_refl _, rfl⟩
  · rw [onBlocks_eq_error h]
    exact ⟨Nat.le_succ _, rfl⟩

/-- What a `choose` does before its statements. -/
theorem opens_opening {text : List Char} {c : Compiler} (h : Chooses text c) :
    Opens c (after (opening text) c) := by
  obtain ⟨head, s, hhead, hsymbol⟩ := h
  have hstatements : Always Eq (do ofExcept (Source.statements (← get).config.stem text)) :=
    always_get.bind fun c => always_ofExcept _
  have hcontrol : Opens c (after (control .choose >>= fun _ => do
      ofExcept (Source.statements (← get).config.stem text)) c) := by
    have hopens := opens_control_choose c
    refine after_bind (fun _ d h => ?_) fun e d h => ?_ <;> simp only [after, h] at hopens
    · rw [← hstatements d]
      exact hopens
    · exact hopens
  refine after_bind (fun r d h => ?_) fun e d h => ?_ <;> rw [hhead] at h <;> cases h
  dsimp only
  refine after_bind (fun d e h => ?_) fun e d h => by cases h
  obtain ⟨rfl, rfl⟩ := get_eq_ok_iff.1 h
  rw [hsymbol]
  refine after_bind (fun _ e h => ?_) fun e d h => ?_
  · obtain ⟨_, rfl⟩ := ask_eq_ok_iff.1 h
    exact hcontrol
  · unfold ask at h
    split at h <;> cases h
    exact ⟨Nat.le_succ _, rfl⟩

theorem stays_statements (text : List Char) (statements : List (List Char)) :
    Always Stays (statements.forM fun s =>
      if Text.trim s = Text.trim text then statement s else inFragment s (statement s)) := by
  refine Always.forM (fun s => ?_) statements
  split
  · exact stays_statement s
  · intro c
    rw [after_inFragment]
    exact stays_statement s c

/-- The blocks and the structures of a line are those of its first part, but for the
structures that its statements enter. -/
theorem stays_opening_line (text : List Char) (c : Compiler) :
    Stays (after (opening text) c) (after (line text) c) := by
  rw [line_eq]
  refine after_bind (fun statements d h => ?_) fun e d h => ?_ <;> simp only [after, h]
  · exact stays_statements text statements d
  · exact Std.Refl.refl d

/-- No line changes the settings. -/
theorem config_of_line {text : List Char} {c d : Compiler} (h : line text c = .ok () d) :
    d.config = c.config := by
  have hstays := stays_opening_line text c
  rw [after, after, h] at hstays
  rw [line_eq] at h
  obtain ⟨_, e, he, _⟩ := bind_eq_ok_iff.1 h
  rw [he] at hstays
  exact hstays.config.trans (keeps_opening sameNames_control text c _ e he).config

theorem config_of_takes {texts : List (List Char)} {c d : Compiler} (h : Takes c texts d) :
    d.config = c.config := by
  induction h with
  | nil => rfl
  | cons hline _ ih => exact ih.trans (config_of_line hline)

theorem covers_line {text : List Char} {c : Compiler} (h : ¬ Abandons text c) :
    Covers c (after (line text) c) := by
  have hstays := stays_opening_line text c
  by_cases hchooses : Chooses text c
  · obtain ⟨hdepth, hstructures⟩ := opens_opening hchooses
    obtain ⟨hdepth', hsize, _⟩ := hstays
    rw [hstructures] at hsize
    have hentered : ¬ (_ ∧ _) := fun hopened => h ⟨hchooses, hopened⟩
    unfold Covers
    omega
  · exact covers_trans (covers_opening hchooses) hstays.covers

-- ============================================================================
-- Scripts and tables
-- ============================================================================

/-- Reporting an error changes neither blocks nor structures nor settings. -/
theorem stays_reporting (f : Error → Error) (x : Compile α) (c : Compiler) :
    Stays (after x c) (after (reporting f x) c) := by
  unfold after reporting
  cases x c <;> exact stays_of_eq rfl rfl rfl

theorem covers_lines (file : String) (number : Nat) {texts : List (List Char)} {c : Compiler}
    (h : ∀ text d, Visits line texts c text d → ¬ Abandons text d) :
    Covers c (after (lines file number texts) c) := by
  induction texts generalizing number c with
  | nil => exact always_pure _ c
  | cons text rest ih =>
    have hline : Covers c (after (line text) c) := covers_line (h text c (.here text rest c))
    refine rel_after_bind ?_ fun _ d hd => ?_
    · exact covers_trans hline (stays_reporting _ (line text) c).covers
    · exact ih (number + 1) fun other e he => h other e (.later (onLine_eq_ok_iff.1 hd) he)

theorem script_eq (file source : String) (c : Compiler) :
    script file source c = lines file 1 (Source.lines source) (loading c file) := rfl

theorem covers_script {file source : String} {c : Compiler}
    (h : ∀ text d, Visits line (Source.lines source) (loading c file) text d → ¬ Abandons text d) :
    Covers c (after (script file source) c) := by
  have hloading : Covers c (loading c file) := (stays_of_eq rfl rfl rfl).covers
  rw [after, script_eq]
  exact covers_trans hloading (covers_lines file 1 h)

/-! ## Feeds -/

/-- The compile run behind the feeds, whether they went well or not. -/
def fed (c : Compiler) (feeds : List Feed) : Compiler :=
  feeds.foldl (fun c feed => after feed.load c) c

/-- Of the feeds, taken in from the state `c` on, a script comes to the line `text`, in the
state `d`.  A script comes no further than to its first line that fails. -/
def ComesTo (c : Compiler) (feeds : List Feed) (text : List Char) (d : Compiler) : Prop :=
  ∃ front file source rest, feeds = front ++ .script file source :: rest ∧
    Visits line (Source.lines source) (loading (fed c front) file) text d

theorem ComesTo.cons {c d : Compiler} {feeds : List Feed} {text : List Char} {feed : Feed}
    (h : ComesTo (after feed.load c) feeds text d) : ComesTo c (feed :: feeds) text d := by
  obtain ⟨front, file, source, rest, rfl, hvisits⟩ := h
  exact ⟨feed :: front, file, source, rest, rfl, hvisits⟩

theorem covers_load {feed : Feed} {c : Compiler}
    (h : ∀ file source, feed = .script file source → ∀ text d,
      Visits line (Source.lines source) (loading c file) text d → ¬ Abandons text d) :
    Covers c (after feed.load c) := by
  have hreporting : ∀ {α : Type} {x : Compile α} {c : Compiler} (f : Error → Error),
      Stays c (after x c) → Stays c (after (reporting f x) c) := fun f h =>
    IsTrans.trans _ _ _ h (stays_reporting f _ _)
  cases feed with
  | script file source => exact covers_script (h file source rfl)
  | enumeration file source =>
    have hnamed : Stays c { c with file } := stays_of_eq rfl rfl rfl
    exact (IsTrans.trans _ _ _ hnamed
      (compositional_stays.enumLines hreporting file 1 0 _ _)).covers
  | table file source =>
    have hnamed : Stays c { c with file } := stays_of_eq rfl rfl rfl
    exact (IsTrans.trans _ _ _ hnamed (compositional_stays.tableLines hreporting file 1 _ _)).covers

/-- Feeds of any kind, in any order, each taken in whatever became of those before. -/
theorem covers_fed {feeds : List Feed} {c : Compiler}
    (h : ∀ text d, ComesTo c feeds text d → ¬ Abandons text d) : Covers c (fed c feeds) := by
  induction feeds generalizing c with
  | nil => exact Std.Refl.refl c
  | cons feed feeds ih =>
    have hload : Covers c (after feed.load c) := by
      refine covers_load fun file source heq text d hd => ?_
      subst heq
      exact h text d ⟨[], file, source, feeds, rfl, hd⟩
    exact covers_trans hload (ih fun text d hd => h text d hd.cons)

-- ============================================================================
-- Finished programs
-- ============================================================================

/-- An open structure keeps a program from being finished. -/
theorem finish_unclosed {c : Compiler} {word : Word} (h : c.structures.top? = some word) :
    ∃ e c', finish c = .error e c' ∧ e.kind = .unclosedBlock := by
  have hfinish : finish c = .error ((Error.of (.unclosed word (closer word))).inFile c.file)
      (report c ((Error.of (.unclosed word (closer word))).inFile c.file)) := by
    have hget : (get : Compile Compiler) c = .ok c c := rfl
    simp only [finish, bind, EStateM.bind, hget, reporting, ask, h]
  exact ⟨_, _, hfinish, rfl⟩

/-- No program with an open block is handed out.  Whatever scripts and tables a fresh
compile run was fed with, and whether they went well or not, it can be finished only if no
block is open, and while one is open `finish` fails because of that; unless a line was a
`choose` that opened its block and did not come to enter its structure. -/
theorem finish_complete (config : Config) (feeds : List Feed)
    (h : ∀ text d, ComesTo (Compiler.ofConfig config) feeds text d → ¬ Abandons text d) :
    (∀ p c, finish (fed (Compiler.ofConfig config) feeds) = .ok p c →
      (fed (Compiler.ofConfig config) feeds).blocks.isComplete = true) ∧
    ((fed (Compiler.ofConfig config) feeds).blocks.isComplete = false →
      ∃ e c, finish (fed (Compiler.ofConfig config) feeds) = .error e c ∧
        e.kind = .unclosedBlock) := by
  have hcovers := covers_fed h
  generalize fed (Compiler.ofConfig config) feeds = c at hcovers ⊢
  have hcover : c.blocks.depth ≤ c.structures.size := by
    have hzero : (Compiler.ofConfig config).blocks.depth = 0 := rfl
    rw [Covers, hzero] at hcovers
    omega
  cases htop : c.structures.top? with
  | none =>
    have hnone : c.structures.size = 0 := by
      rw [Stack.size, Array.size_eq_zero_iff]
      exact Array.back?_eq_none_iff.1 htop
    have hcomplete : c.blocks.isComplete = true := by
      rw [Blocks.isComplete_iff]
      omega
    exact ⟨fun _ _ _ => hcomplete, fun hopen => absurd hopen (by simp [hcomplete])⟩
  | some word =>
    obtain ⟨e, d, hfinish, hkind⟩ := finish_unclosed htop
    refine ⟨fun p c' hok => ?_, fun _ => ⟨e, d, hfinish, hkind⟩⟩
    rw [hfinish] at hok
    cases hok

/-- A script of one line leaves the blocks as the first part of this line does. -/
theorem stays_opening_fed (file : String) {source : String} {text : List Char}
    (h : Source.lines source = [text]) (c : Compiler) :
    Stays (after (opening text) (loading c file)) (fed c [.script file source]) := by
  have hfed : fed c [.script file source] =
      after (onLine file 1 text (line text)) (loading c file) := by
    have hload : fed c [.script file source] = after (script file source) c := rfl
    rw [hload, after, script_eq, h, after, lines]
    simp only [bind, EStateM.bind]
    cases onLine file 1 text (line text) (loading c file) <;> rfl
  rw [hfed]
  exact IsTrans.trans _ _ _ (stays_opening_line text _) (stays_reporting _ _ _)

/-- A script whose only line opens a loop and fails, since the condition is missing. -/
def bareLoop : Feed :=
  .script "" "while\n"

theorem lines_bareLoop : Source.lines "while\n" = ["while".toList] := by
  decide +kernel

theorem comesTo_bareLoop {text : List Char} {d : Compiler}
    (h : ComesTo (Compiler.ofConfig {}) [bareLoop] text d) :
    text = "while".toList ∧ d = fresh "" := by
  obtain ⟨front, file, source, rest, heq, hvisits⟩ := h
  cases front with
  | cons feed front => simp at heq
  | nil =>
    cases heq
    rw [lines_bareLoop] at hvisits
    cases hvisits with
    | here => exact ⟨rfl, rfl⟩
    | later _ k => cases k

theorem bareLoop_unclosed :
    (fed (Compiler.ofConfig {}) [bareLoop]).blocks.isComplete = false ∧
    ∃ e c, finish (fed (Compiler.ofConfig {}) [bareLoop]) = .error e c ∧
      e.kind = .unclosedBlock := by
  have hopen : (fed (Compiler.ofConfig {}) [bareLoop]).blocks.isComplete = false := by
    have hopening : (after (opening "while".toList) (fresh "")).blocks.depth = 1 := by
      decide +kernel
    have hdepth : (fed (Compiler.ofConfig {}) [bareLoop]).blocks.depth =
        (after (opening "while".toList) (fresh "")).blocks.depth :=
      (stays_opening_fed "" lines_bareLoop (Compiler.ofConfig {})).depth
    rw [Bool.eq_false_iff, Ne, Blocks.isComplete_iff, hdepth, hopening]
    exact Nat.one_ne_zero
  have hnone : ∀ text d, ComesTo (Compiler.ofConfig {}) [bareLoop] text d → ¬ Abandons text d := by
    rintro text d hcomes ⟨⟨head, s, hhead, hsymbol⟩, _⟩
    obtain ⟨rfl, rfl⟩ := comesTo_bareLoop hcomes
    cases hhead
    revert hsymbol
    decide +kernel
  exact ⟨hopen, (finish_complete {} [bareLoop] hnone).2 hopen⟩

end Compile

end ScriptMachine
