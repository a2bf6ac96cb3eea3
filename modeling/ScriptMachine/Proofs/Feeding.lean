/-
  ScriptMachine.Proofs.Feeding

  Scripts and tables fed to a compile run.  Each of them grows the program by whole
  instructions (`Compile.whole_load`), so that a run holds a plan at any time; the plan
  calls functions that the feeds declare, and stores into the value under test and into
  variables that statements of the scripts assign to (`Compile.feeds_grow`).  Finishing the
  run fills in the labels of this plan and puts a `stop` behind it (`Compile.finish_plan`).
-/

import ScriptMachine.Proofs.Commands
import ScriptMachine.Proofs.Lines

namespace ScriptMachine

theorem Plan.labels_stop (ps : Plan) : labels (ps ++ [.plain .stop]) = labels ps := by
  simp [labels, Planned.label?]

namespace Compile

variable {α : Type} {D : Signatures} {N : String → Prop}

/-! ## One after the other -/

/-- Taking the elements of a list in turn with `f`, from the state `c` on, the element
`a` is taken in the state `d`. -/
inductive Visits (f : α → Compile Unit) : List α → Compiler → α → Compiler → Prop where
  | here (a : α) (as : List α) (c : Compiler) : Visits f (a :: as) c a c
  | later {a b : α} {as : List α} {c c' d : Compiler} (h : f b c = .ok () c')
      (k : Visits f as c' a d) : Visits f (b :: as) c a d

/-- What every element keeps in the state in which it is taken, all of them keep. -/
theorem rel_of_forM {R : Compiler → Compiler → Prop} [Std.Refl R] [IsTrans Compiler R]
    {f : α → Compile Unit} {as : List α} {c c' : Compiler}
    (hf : ∀ a d, Visits f as c a d → ∀ d', f a d = .ok () d' → R d d')
    (h : as.forM f c = .ok () c') : R c c' := by
  induction as generalizing c with
  | nil =>
    obtain ⟨_, rfl⟩ := pure_eq_ok_iff.1 h
    exact Std.Refl.refl _
  | cons a as ih =>
    obtain ⟨_, d, ha, hrest⟩ := bind_eq_ok_iff.1 h
    exact IsTrans.trans c d c' (hf a c (.here a as c) d ha)
      (ih (fun b e hb => hf b e (.later ha hb)) hrest)

/-- Only how the elements succeed decides how all of them do. -/
theorem forM_eq_ok_congr {f g : α → Compile Unit}
    (hfg : ∀ a c c', f a c = .ok () c' → g a c = .ok () c') {as : List α} {c c' : Compiler}
    (h : as.forM f c = .ok () c') : as.forM g c = .ok () c' := by
  induction as generalizing c with
  | nil => exact h
  | cons a as ih =>
    obtain ⟨_, d, ha, hrest⟩ := bind_eq_ok_iff.1 h
    exact bind_eq_ok_iff.2 ⟨(), d, hfg a c d ha, ih hrest⟩

theorem forM_line_of_takes {texts : List (List Char)} {c c' : Compiler} (h : Takes c texts c') :
    texts.forM line c = .ok () c' := by
  induction h with
  | nil c => rfl
  | cons h k ih => exact bind_eq_ok_iff.2 ⟨(), _, h, ih⟩

theorem takes_of_forM_line {texts : List (List Char)} {c c' : Compiler}
    (h : texts.forM line c = .ok () c') : Takes c texts c' := by
  induction texts generalizing c with
  | nil =>
    obtain ⟨_, rfl⟩ := pure_eq_ok_iff.1 h
    exact .nil _
  | cons text texts ih =>
    obtain ⟨_, d, hline, hrest⟩ := bind_eq_ok_iff.1 h
    exact .cons hline (ih hrest)

/-! ## Statements -/

theorem head?_eq_ok {stop line : List Char} {r : Option (String × Scanner)} {c c' : Compiler}
    (h : head? stop line c = .ok r c') : c' = c := by
  have hkeeps : Keeps Eq (head? stop line) := by
    unfold head?
    dsimp only
    split
    · exact keeps_pure _
    · exact keeps_throw _
    · exact keeps_pure _
  exact (hkeeps c r c' h).symm

/-- The statement, compiled in the state `c`, is a declaration and binds a function
number to a shape. -/
def StatementDeclares (text : List Char) (c : Compiler) : Signatures := fun code params =>
  ∃ head s, head? ('%' :: headStop) text c = .ok (some (head, s)) c ∧
    c.symbols.get? head = some (.command .declare) ∧ Declares s c code params

/-- The statement, compiled in the state `c`, assigns to the variable: `var` declares it,
or the statement begins with it, and an operator follows. -/
def StatementAssigns (text : List Char) (c : Compiler) (name : String) : Prop :=
  ∃ head s, head? ('%' :: headStop) text c = .ok (some (head, s)) c ∧
    ((c.symbols.get? head = some (.command .var) ∧ ∃ cs t,
        (s.skip blanks).word? ('=' :: blanks) = some (cs, t) ∧ Assigning t ∧
        name = String.ofList cs) ∨
      ((c.symbols.get? head = some .var ∨ c.symbols.get? head = none) ∧ Assigning s ∧
        name = head))

theorem whole_call {code : UInt16} {params : List Param} (hfunction : D code params)
    (s : Scanner) : Whole D N (emit (·.call code params s)) := by
  refine whole_emit fun ctx items a hD h => ?_
  obtain ⟨as, has, hcalls, rfl⟩ := Context.wrote_call ctx hD code params s h hfunction
  refine ⟨[.func code as], ?_, List.forall_mem_singleton.2 hcalls, ?_, by simp [Instruction.items]⟩
  · exact List.forall_mem_singleton.2 ⟨has, rfl⟩
  · exact List.forall_mem_singleton.2 fun _ hname => by cases hname

/-- The part of a statement that its first word decides. -/
theorem headed_grows {head : String} {s : Scanner} {c c' : Compiler}
    (hdeclare : c.symbols.get? head = some (.command .declare) →
      ∀ code params, Declares s c code params → D code params)
    (hcase : N caseName) (hassign : c.symbols.get? head = some (.command .var) → ∀ cs t,
      (s.skip blanks).word? ('=' :: blanks) = some (cs, t) → Assigning t → N (String.ofList cs))
    (hvar : c.symbols.get? head = some .var → Assigning s → N head)
    (h : (match c.symbols.get? head with
      | some (.command word) => command word s
      | some (.function code params) => do
        let _ ← emit (·.call code params s)
      | some .var => emit (·.assignment head s)
      | some (.constant _) => throw (.of (.constantStatement head))
      | none => throw (.of (.undefined head)) : Compile Unit) c = .ok () c') : c.Grows D N c' := by
  intro hD
  cases hsymbol : c.symbols.get? head with
  | none =>
    rw [hsymbol] at h
    exact absurd h throw_ne_ok
  | some symbol =>
    rw [hsymbol] at h
    cases symbol with
    | command word =>
      by_cases hword : word = .declare
      · subst hword
        exact declareFunction_grows (hdeclare hsymbol) h hD
      · refine whole_command hword hcase (fun hvariable => ?_) _ _ _ h hD
        subst hvariable
        exact hassign hsymbol
    | function code params =>
      have hcall : Whole D N (do let _ ← emit (·.call code params s)) :=
        (whole_call (hD head code params hsymbol) s).bind fun _ => keeps_pure _
      exact hcall _ _ _ h hD
    | var => exact whole_assignment (hvar hsymbol) _ _ _ h hD
    | constant k => exact absurd h throw_ne_ok

theorem statement_grows {text : List Char} {c c' : Compiler}
    (hdeclare : ∀ code params, StatementDeclares text c code params → D code params)
    (hcase : N caseName) (hassign : ∀ name, StatementAssigns text c name → N name)
    (h : statement text c = .ok () c') : c.Grows D N c' := by
  obtain ⟨r, _, hhead, h₁⟩ := bind_eq_ok_iff.1 h
  obtain rfl := head?_eq_ok hhead
  cases r with
  | none =>
    obtain ⟨_, rfl⟩ := pure_eq_ok_iff.1 h₁
    exact .refl _
  | some r =>
    obtain ⟨head, s⟩ := r
    obtain ⟨_, _, hget, h₂⟩ := bind_eq_ok_iff.1 h₁
    obtain ⟨rfl, rfl⟩ := get_eq_ok_iff.1 hget
    dsimp only at h₂
    split at h₂
    · -- the first word becomes a variable, so the statement is no command
      rename_i hnew
      rw [Bool.and_eq_true, Bool.not_eq_true', Symbols.contains_eq, Option.isSome_eq_false_iff,
        Option.isNone_iff_eq_none] at hnew
      obtain ⟨_, d, hset, h₃⟩ := bind_eq_ok_iff.1 h₂
      have hvariable : d.symbols.get? head = some .var := by
        obtain ⟨symbols, hsymbols, rfl⟩ := onSymbols_eq_ok_iff.1 hset
        obtain ⟨_, _, rfl⟩ := Symbols.set_eq_ok_iff.1 hsymbols
        rw [Symbols.get?_insert, if_pos rfl]
      obtain ⟨_, _, hget, h₄⟩ := bind_eq_ok_iff.1 h₃
      obtain ⟨rfl, rfl⟩ := get_eq_ok_iff.1 hget
      exact (whole_set head (by simp) _ _ _ hset).trans (headed_grows
        (fun hcommand => by rw [hvariable] at hcommand; cases hcommand) hcase
        (fun hcommand => by rw [hvariable] at hcommand; cases hcommand)
        (fun _ hs => hassign head ⟨head, s, hhead, .inr ⟨.inr hnew.1, hs, rfl⟩⟩) h₄)
    · obtain ⟨_, _, hget, h₃⟩ := bind_eq_ok_iff.1 h₂
      obtain ⟨rfl, rfl⟩ := get_eq_ok_iff.1 hget
      exact headed_grows
        (fun hcommand code params hd => hdeclare code params ⟨head, s, hhead, hcommand, hd⟩) hcase
        (fun hcommand cs t hword ht =>
          hassign _ ⟨head, s, hhead, .inl ⟨hcommand, cs, t, hword, ht, rfl⟩⟩)
        (fun hsymbol hs => hassign head ⟨head, s, hhead, .inr ⟨.inl hsymbol, hs, rfl⟩⟩) h₃

/-! ## Lines -/

/-- What a line does before its statements: the bookkeeping of its command word.  It
gives the statements. -/
def opening (text : List Char) : Compile (List (List Char)) := do
  match ← head? headStop text with
  | none => return []
  | some (head, _) =>
    match (← get).symbols.get? head with
    | some (.command word) =>
      ask (·.checkSwitch (some word))
      control word
    | some _ => pure ()
    | none =>
      if isAutoVariable (← get).config head then pure () else throw (.of (.undefined head))
    ofExcept (Source.statements (← get).config.stem text)

theorem line_eq (text : List Char) : line text = (do
    let statements ← opening text
    statements.forM fun s =>
      if Text.trim s = Text.trim text then statement s else inFragment s (statement s)) := by
  unfold line opening
  rw [bind_assoc]
  refine congrArg _ (funext fun r => ?_)
  cases r with
  | none => rfl
  | some r =>
    dsimp only
    rw [bind_assoc]
    refine congrArg _ (funext fun c => ?_)
    cases hsymbol : c.symbols.get? r.1 with
    | none =>
      dsimp only
      rw [bind_assoc]
      refine congrArg _ (funext fun d => ?_)
      split <;> simp only [bind_assoc]
    | some symbol => cases symbol <;> simp only [bind_assoc]

/-- A line is compiled by what it does first, and then its statements in turn. -/
theorem line_eq_ok {text : List Char} {c c' : Compiler} (h : line text c = .ok () c') :
    ∃ statements d, opening text c = .ok statements d ∧
      statements.forM statement d = .ok () c' := by
  rw [line_eq] at h
  obtain ⟨statements, d, hopening, hrest⟩ := bind_eq_ok_iff.1 h
  refine ⟨statements, d, hopening, forM_eq_ok_congr (fun s e e' hs => ?_) hrest⟩
  split at hs
  · exact hs
  · exact inFragment_eq_ok_iff.1 hs

theorem line_eq_ok_iff {text : List Char} {c c' : Compiler} :
    line text c = .ok () c' ↔ ∃ statements d, opening text c = .ok statements d ∧
      statements.forM statement d = .ok () c' := by
  refine ⟨line_eq_ok, fun ⟨statements, d, hopening, hrest⟩ => ?_⟩
  rw [line_eq]
  refine bind_eq_ok_iff.2 ⟨statements, d, hopening, forM_eq_ok_congr (fun s e e' hs => ?_) hrest⟩
  split
  · exact hs
  · exact inFragment_eq_ok_iff.2 hs

/-- The first word of a line, standing for the name, passes: it is known and no command,
or becomes a variable without being declared. -/
def Passes (c : Compiler) (name : String) : Prop :=
  (∃ s, c.symbols.get? name = some s ∧ ∀ word, s ≠ .command word) ∨
    c.symbols.get? name = none ∧ isAutoVariable c.config name = true

/-- A line whose first word passes is taken apart at once. -/
theorem opening_of_passes {text : List Char} {name : String} {s : Scanner} {c : Compiler}
    (hhead : head? headStop text c = .ok (some (name, s)) c) (h : Passes c name) :
    opening text c = ofExcept (Source.statements c.config.stem text) c := by
  unfold opening
  rw [bind_of_eq_ok hhead]
  show (match c.symbols.get? name with
    | some (.command word) => _
    | some _ => _
    | none => _ : Compile (List (List Char))) c = _
  rcases h with ⟨symbol, hsymbol, hcommand⟩ | ⟨hnone, hauto⟩
  · rw [hsymbol]
    cases symbol with
    | command word => exact absurd rfl (hcommand word)
    | function | var | constant => rfl
  · rw [hnone]
    show (if isAutoVariable c.config name then _ else _ : Compile (List (List Char))) c = _
    rw [if_pos hauto]
    rfl

/-- A line that is taken apart into itself is one statement. -/
theorem line_of_opening {text : List Char} {c d : Compiler} (h : opening text c = .ok [text] d) :
    line text c = statement text d := by
  rw [line_eq, bind_of_eq_ok h]
  show ((if _ then _ else _ : Compile Unit) >>= fun _ => pure ()) d = _
  rw [if_pos rfl, bind_pure_unit]

/-- A line without groups whose first word is known and no command. -/
theorem line_of_symbol {text : List Char} {name : String} {s t : Scanner} {symbol : Symbol}
    {c : Compiler} (hline : head? headStop text c = .ok (some (name, s)) c)
    (hstatement : head? ('%' :: headStop) text c = .ok (some (name, t)) c)
    (hsymbol : c.symbols.get? name = some symbol) (hcommand : ∀ word, symbol ≠ .command word)
    (htext : Source.statements c.config.stem text = .ok [text]) :
    line text c = ofSymbol name t symbol c := by
  have hopening : opening text c = .ok [text] c := by
    rw [opening_of_passes hline (.inl ⟨symbol, hsymbol, hcommand⟩), htext]
    rfl
  rw [line_of_opening hopening, statement_of_symbol hstatement hsymbol]

/-- Before its statements, a line changes no more than the bookkeeping of its word. -/
theorem keeps_opening {R : Compiler → Compiler → Prop} [Std.Refl R] [IsTrans Compiler R]
    (h : ∀ word, Keeps R (control word)) (text : List Char) : Keeps R (opening text) := by
  refine Keeps.bind (fun c r c' h => ?_) fun r => ?_
  · rw [head?_eq_ok h]
    exact Std.Refl.refl c
  · have hrest : Keeps R (do ofExcept (Source.statements (← get).config.stem text)) :=
      keeps_get.bind fun c => keeps_ofExcept _
    split
    · exact keeps_pure _
    · refine keeps_get.bind fun c => ?_
      dsimp only
      split
      · exact (keeps_ask _).bind fun _ => (h _).bind fun _ => hrest
      · exact hrest
      · refine keeps_get.bind fun d => ?_
        split
        · exact hrest
        · exact (keeps_throw _).bind fun _ => hrest

/-- A statement of the line, compiled from the state `c` on, is a declaration and binds
a function number to a shape. -/
def LineDeclares (text : List Char) (c : Compiler) : Signatures := fun code params =>
  ∃ statements d s e, opening text c = .ok statements d ∧ Visits statement statements d s e ∧
    StatementDeclares s e code params

/-- The line, compiled from the state `c` on, comes to the statement `s`, in the state
`e`. -/
def LineReaches (text : List Char) (c : Compiler) (s : List Char) (e : Compiler) : Prop :=
  ∃ statements d, opening text c = .ok statements d ∧ Visits statement statements d s e

theorem line_grows {text : List Char} {c c' : Compiler}
    (hdeclare : ∀ code params, LineDeclares text c code params → D code params)
    (hcase : N caseName) (hassign : ∀ s e name, LineReaches text c s e →
      StatementAssigns s e name → N name)
    (h : line text c = .ok () c') : c.Grows D N c' := by
  obtain ⟨statements, d, hopening, hrest⟩ := line_eq_ok h
  refine (keeps_opening whole_control text _ _ _ hopening).trans
    (rel_of_forM (fun s e hs e' hstep => ?_) hrest)
  exact statement_grows
    (fun code params hd => hdeclare code params ⟨statements, d, s, e, hopening, hs, hd⟩) hcase
    (fun name hname => hassign s e name ⟨statements, d, hopening, hs⟩ hname) hstep

/-! ## Tables of names -/

theorem whole_enumNames (counter : Int64) (s : Scanner) : Whole D N (enumNames counter s) := by
  fun_induction enumNames counter s with
  | case1 => exact keeps_pure _
  | case2 => exact keeps_pure _
  | case3 => exact keeps_pure _
  | case4 counter s word t hw hne hcomment ih => exact (whole_set _ (by simp)).bind fun _ => ih

theorem whole_tableNumber (word : Option (List Char × Scanner)) : Whole D N (tableNumber word) := by
  unfold tableNumber
  dsimp only
  split
  · exact keeps_pure _
  · exact keeps_throw _

theorem whole_enumLine (counter : Int64) (text : List Char) : Whole D N (enumLine counter text) := by
  unfold enumLine
  dsimp only
  split
  · exact keeps_pure _
  · exact whole_tableNumber _
  · exact whole_enumNames _ _

theorem whole_enumLines (file : String) (number : Nat) (counter : Int64)
    (texts : List (List Char)) : Whole D N (enumLines file number counter texts) := by
  induction texts generalizing number counter with
  | nil => exact keeps_pure ()
  | cons text rest ih =>
    exact ((whole_enumLine counter text).onLine file number text).bind fun _ => ih _ _

theorem whole_tableLine (text : List Char) : Whole D N (tableLine text) := by
  unfold tableLine
  split
  · exact (whole_tableNumber _).bind fun n => whole_set _ (by simp)
  · exact keeps_pure ()

theorem whole_tableLines (file : String) (number : Nat) (texts : List (List Char)) :
    Whole D N (tableLines file number texts) := by
  induction texts generalizing number with
  | nil => exact keeps_pure ()
  | cons text rest ih => exact ((whole_tableLine text).onLine file number text).bind fun _ => ih _

/-! ## Feeds -/

/-- What a compile run is fed with. -/
inductive Feed where
  | script (file source : String)
  | enumeration (file source : String)
  | table (file source : String)

/-- The step that takes a feed in. -/
def Feed.load : Feed → Compile Unit
  | script file source => Compile.script file source
  | enumeration file source => loadEnum file source
  | table file source => loadTable file source

/-- A line of the feed, taken in from the state `c` on, declares a function.  Tables of
names declare none. -/
def FeedDeclares (feed : Feed) (c : Compiler) : Signatures := fun code params =>
  match feed with
  | .script file source => ∃ text d, Visits line (Source.lines source) (loading c file) text d ∧
      LineDeclares text d code params
  | _ => False

/-- A script, taken in from the state `c` on, comes to the statement `s`, in the state
`e`.  Tables of names hold no statements. -/
def FeedReaches (feed : Feed) (c : Compiler) (s : List Char) (e : Compiler) : Prop :=
  match feed with
  | .script file source => ∃ text d, Visits line (Source.lines source) (loading c file) text d ∧
      LineReaches text d s e
  | _ => False

theorem script_grows {file source : String} {c c' : Compiler}
    (hdeclare : ∀ code params, FeedDeclares (.script file source) c code params → D code params)
    (hcase : N caseName) (hassign : ∀ s e name, FeedReaches (.script file source) c s e →
      StatementAssigns s e name → N name)
    (h : script file source c = .ok () c') : c.Grows D N c' := by
  have htakes := script_eq_ok_iff.1 h
  have hloading : c.Grows D N (loading c file) := .same rfl rfl rfl id
  refine hloading.trans (rel_of_forM (fun text d hd d' hline => ?_) (forM_line_of_takes htakes))
  exact line_grows (fun code params k => hdeclare code params ⟨text, d, hd, k⟩) hcase
    (fun s e name k hname => hassign s e name ⟨text, d, hd, k⟩ hname) hline

theorem load_grows {feed : Feed} {c c' : Compiler}
    (hdeclare : ∀ code params, FeedDeclares feed c code params → D code params)
    (hcase : N caseName) (hassign : ∀ s e name, FeedReaches feed c s e →
      StatementAssigns s e name → N name)
    (h : feed.load c = .ok () c') : c.Grows D N c' := by
  cases feed with
  | script file source => exact script_grows hdeclare hcase hassign h
  | enumeration file source =>
    have hload : Whole D N (loadEnum file source) :=
      Keeps.bind (whole_modify (fun _ => rfl) (fun _ => rfl) (fun _ => rfl) fun _ => rfl) fun _ =>
        whole_enumLines _ _ _ _
    exact hload _ _ _ h
  | table file source =>
    have hload : Whole D N (loadTable file source) :=
      Keeps.bind (whole_modify (fun _ => rfl) (fun _ => rfl) (fun _ => rfl) fun _ => rfl) fun _ =>
        whole_tableLines _ _ _
    exact hload _ _ _ h

/-- The functions that the feeds of a fresh compile run declare. -/
def Declared (config : Config) (feeds : List Feed) : Signatures := fun code params =>
  ∃ feed d, Visits Feed.load feeds (Compiler.ofConfig config) feed d ∧
    FeedDeclares feed d code params

/-- Of the feeds of a fresh compile run, a script comes to the statement `s`, in the
state `e`. -/
def Reaches (config : Config) (feeds : List Feed) (s : List Char) (e : Compiler) : Prop :=
  ∃ file source d text d' statements d'',
    Visits Feed.load feeds (Compiler.ofConfig config) (.script file source) d ∧
    Visits line (Source.lines source) (loading d file) text d' ∧
    opening text d' = .ok statements d'' ∧ Visits statement statements d'' s e

theorem reaches_of_feed {config : Config} {feeds : List Feed} {feed : Feed} {d : Compiler}
    (hd : Visits Feed.load feeds (Compiler.ofConfig config) feed d) {s : List Char} {e : Compiler}
    (h : FeedReaches feed d s e) : Reaches config feeds s e := by
  cases feed with
  | script file source =>
    obtain ⟨text, d', htext, statements, d'', hopening, hs⟩ := h
    exact ⟨file, source, d, text, d', statements, d'', hd, htext, hopening, hs⟩
  | enumeration file source => exact h.elim
  | table file source => exact h.elim

/-- The variables that the scripts of a fresh compile run assign to. -/
def Assigned (config : Config) (feeds : List Feed) (name : String) : Prop :=
  ∃ s e, Reaches config feeds s e ∧ StatementAssigns s e name

/-- A fresh compile run grows by whole instructions.  They call functions that are declared,
and store into the value under test and into variables that are assigned to. -/
theorem feeds_grow {config : Config} {feeds : List Feed} {c : Compiler}
    (h : feeds.forM Feed.load (Compiler.ofConfig config) = .ok () c) :
    (Compiler.ofConfig config).Grows (Declared config feeds)
      (fun name => name = caseName ∨ Assigned config feeds name) c :=
  rel_of_forM (fun feed d hd _ hload =>
    load_grows (fun _ _ hdeclare => ⟨feed, d, hd, hdeclare⟩) (.inl rfl)
      (fun s e _ hs hname => .inr ⟨s, e, reaches_of_feed hd hs, hname⟩) hload) h

/-- Whatever is declared and assigned to, a script writes whole instructions. -/
theorem whole_script (file source : String) :
    Whole (fun _ _ => True) (fun _ => True) (script file source) :=
  fun _ _ _ h =>
    script_grows (fun _ _ _ => trivial) trivial (fun _ _ _ _ _ => trivial) h

theorem whole_load (feed : Feed) : Whole (fun _ _ => True) (fun _ => True) feed.load :=
  fun _ _ _ h => load_grows (fun _ _ _ => trivial) trivial (fun _ _ _ _ _ => trivial) h

/-! ## Finished programs -/

/-- A fresh compile run holds nothing and knows no function, so what it grows to is a
plan that uses functions and variables of the sets only. -/
theorem ofConfig_grows_uses {config : Config} {c : Compiler}
    (h : (Compiler.ofConfig config).Grows D N c) :
    ∃ ps : Plan, c.program.code.toList = ps.bytes Label.placeholder ∧
      c.fixups.toList = ps.fixups 0 ∧ ps.Legible ∧
      (∀ l a, c.blocks.address? l = some a → ∃ qs rs, ps = qs ++ rs ∧ a = Plan.size qs) ∧
      ps.Uses D N := by
  obtain ⟨_, ps, hw, huses, hlabels⟩ := h (Symbols.within_initial D)
  refine ⟨ps, ?_, ?_, hw.legible, fun l a hl => ?_, huses⟩
  · simpa [Compiler.ofConfig] using hw.code
  · simpa [Compiler.ofConfig, Program.position] using hw.fixups
  · rcases hlabels l a hl with hfresh | ⟨qs, rs, rfl, rfl⟩
    · simp [Compiler.ofConfig, Blocks.address?] at hfresh
    · exact ⟨qs, rs, rfl, by simp [Compiler.ofConfig, Program.position]⟩

theorem ofConfig_grows {config : Config} {c : Compiler}
    (h : (Compiler.ofConfig config).Grows D N c) :
    ∃ ps : Plan, c.program.code.toList = ps.bytes Label.placeholder ∧
      c.fixups.toList = ps.fixups 0 ∧ ps.Legible ∧
      ∀ l a, c.blocks.address? l = some a → ∃ qs rs, ps = qs ++ rs ∧ a = Plan.size qs := by
  obtain ⟨ps, hcode, hfixups, hlegible, hcut, _⟩ := ofConfig_grows_uses h
  exact ⟨ps, hcode, hfixups, hlegible, hcut⟩

/-- A program that holds a plan, when it is stopped: the plan goes on with a `stop`,
which has no label. -/
theorem stopped_plan {c : Compiler} {ps : Plan}
    (hcode : c.program.code.toList = ps.bytes Label.placeholder)
    (hfixups : c.fixups.toList = ps.fixups 0) :
    (stopped c).code.toList = [] ++ Plan.bytes Label.placeholder (ps ++ [.plain .stop]) ∧
      c.fixups.toList = Plan.fixups 0 (ps ++ [.plain .stop]) := by
  constructor
  · rw [stopped, Program.toList_write, Plan.bytes_append, List.nil_append, ← hcode]
    rfl
  · rw [Plan.fixups_append, hfixups]
    exact (List.append_nil _).symm

/-- Finishing a program that holds a plan gives the plan with a `stop` behind it,
every label of it replaced by its address. -/
theorem finish_plan {c c' : Compiler} {p : Program} {ps : Plan}
    (hcode : c.program.code.toList = ps.bytes Label.placeholder)
    (hfixups : c.fixups.toList = ps.fixups 0) (h : finish c = .ok p c') :
    p.code.toList = Plan.bytes c.blocks.operand (ps ++ [.plain .stop]) ∧
      ∀ l ∈ ps.labels, (c.blocks.address? l).isSome := by
  obtain ⟨_, q, hq, rfl, _⟩ := finish_eq_ok_iff.1 h
  obtain ⟨hstopped, hall⟩ := stopped_plan hcode hfixups
  have hsome := isSome_address_of_resolveFixups hq
  have hlabels : ∀ l ∈ Plan.labels (ps ++ [.plain .stop]), (c.blocks.address? l).isSome := by
    intro l hl
    rw [← Plan.labels_fixups 0, ← hall] at hl
    obtain ⟨f, hf, rfl⟩ := List.mem_map.1 hl
    exact hsome f hf
  obtain ⟨r, hr, hbytes⟩ := resolveFixups_plan hstopped hlabels
  rw [hall] at hq
  obtain rfl : q = r := (EStateM.Result.ok.inj (hq.symm.trans hr)).2
  rw [Plan.labels_stop] at hlabels
  exact ⟨hbytes, hlabels⟩

/-- A program that holds a plan can be finished when nothing is open and every label
has an address. -/
theorem exists_finish {c : Compiler} {ps : Plan}
    (hcode : c.program.code.toList = ps.bytes Label.placeholder)
    (hfixups : c.fixups.toList = ps.fixups 0) (hopen : c.structures.top? = none)
    (hlabels : ∀ l ∈ ps.labels, (c.blocks.address? l).isSome) :
    ∃ p c', finish c = .ok p c' := by
  obtain ⟨hstopped, hall⟩ := stopped_plan hcode hfixups
  rw [← Plan.labels_stop] at hlabels
  obtain ⟨q, hq, _⟩ := resolveFixups_plan hstopped hlabels
  rw [List.length_nil, ← hall] at hq
  exact ⟨_, _, finish_eq_ok_iff.2 ⟨hopen, q, hq, rfl, rfl⟩⟩

end Compile

end ScriptMachine
