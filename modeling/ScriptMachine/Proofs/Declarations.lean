/-
  ScriptMachine.Proofs.Declarations

  Declarations of functions and their marks.  What a compile run has accepted is a list of
  declarations, the last one first (`Compile.Comes`).  A name stands for the function that
  its last declaration made of it, while the marks are kept by function number, apart from
  the symbols: a number is marked when a declaration of it carried the mark
  (`Compile.Comes.marked_iff`).  So a call is judged by the number that stands behind the
  name (`Compile.marks_reject_calls`).
-/

import ScriptMachine.Proofs.Choices.Legality
import ScriptMachine.Proofs.Lasting

namespace ScriptMachine

/-- A declaration of a function: the name, the number and the shape that it binds to the
name, and whether it carries the mark. -/
structure Declaration where
  name : String
  code : UInt16
  params : List Param
  marked : Bool
  deriving DecidableEq

/-- The last of the declarations of a name; the list has the last one first. -/
def Declaration.last? (ds : List Declaration) (name : String) : Option Declaration :=
  ds.find? (·.name = name)

namespace Compile

variable {α : Type} {config : Config} {ds : List Declaration} {c c' : Compiler}

-- ============================================================================
-- Reading a declaration
-- ============================================================================

/-- The declaration that the words behind a `declare` make, read in the state `c`. -/
def declared? (s : Scanner) (c : Compiler) : Option Declaration := do
  let (name, s) ← (s.skip blanks).word? blanks
  let (shape, s) ← (s.skip blanks).word? blanks
  let params ← (Param.shape shape).toOption
  let (constant, s) ←
    match constantValue s c with
    | .ok r _ => some r
    | .error .. => none
  let code ← (functionCode constant).toOption
  let marked :=
    match (s.skip blanks).word? blanks with
    | some (mark, _) => mark.map Char.toLower = blockCheckMark
    | none => false
  return ⟨String.ofList name, code, params, marked⟩

/-- The first word of the statement, taken in the state `c`, is a name of `declare`. -/
def IsDeclaration (text : List Char) (c : Compiler) : Prop :=
  ∃ head s, head? ('%' :: headStop) text c = .ok (some (head, s)) c ∧
    c.symbols.get? head = some (.command .declare)

/-- The declaration that the statement makes, taken in the state `c`. -/
def declaration? (text : List Char) (c : Compiler) : Option Declaration :=
  match head? ('%' :: headStop) text c with
  | .ok (some (head, s)) _ =>
    if c.symbols.get? head = some (.command .declare) then declared? s c else none
  | _ => none

/-- What an accepted declaration leaves. -/
structure Accepts (d : Declaration) (c c' : Compiler) : Prop where
  named : c'.symbols.get? d.name = some (.function d.code d.params)
  others : ∀ name code params, name ≠ d.name →
    c.symbols.get? name = some (.function code params) →
    c'.symbols.get? name = some (.function code params)
  marks : c'.blockChecked =
    if d.marked = true then c.blockChecked.insert d.code else c.blockChecked

/-- The marks of functions are those of before. -/
def SameMarks (c c' : Compiler) : Prop :=
  c'.blockChecked = c.blockChecked

instance : Std.Refl SameMarks :=
  ⟨fun _ => rfl⟩

instance : IsTrans Compiler SameMarks :=
  ⟨fun _ _ _ h k => Eq.trans k h⟩

/-- No step marks a function but the mark of a declaration. -/
theorem compositionalAll_sameMarks : CompositionalAll fun _ x c => SameMarks c (after x c) :=
  .of_rel (fun _ hmarks _ _ => hmarks) fun _ _ _ => rfl

/-- A constant that is stepped on the way is no function. -/
theorem function_of_constantValue {s t : Scanner} {constant : Constant} {name : String}
    {code : UInt16} {params : List Param} (h : constantValue s c = .ok (constant, t) c')
    (hname : c.symbols.get? name = some (.function code params)) :
    c'.symbols.get? name = some (.function code params) := by
  have hredefines : Redefines False (fun _ => False) c c' := redefines_constantValue s c _ c' h
  rcases hredefines.names name with heq | ⟨_, _, hconstant, _⟩ | ⟨hfalse, _⟩
  · rw [heq, hname]
  · rw [hname] at hconstant
    cases hconstant
  · exact hfalse.elim

theorem sameMarks_constantValue {s t : Scanner} {constant : Constant}
    (h : constantValue s c = .ok (constant, t) c') : c'.blockChecked = c.blockChecked := by
  have hmarks := compositionalAll_sameMarks.constantValue s c
  rw [after, h] at hmarks
  exact hmarks

/-- The end of a declaration, behind its number and its mark. -/
theorem of_declared_eq_ok {name comments : String} {code : UInt16} {params : List Param}
    {s : Scanner} (h : (do
      ofExcept s.expectEnd
      comment comments
      onSymbols (·.set name (.function code params)) : Compile Unit) c = .ok () c') :
    c'.blockChecked = c.blockChecked ∧ ∀ other, c'.symbols.get? other =
      if name = other then some (.function code params) else c.symbols.get? other := by
  obtain ⟨_, _, hend, h₁⟩ := bind_eq_ok_iff.1 h
  obtain ⟨_, rfl⟩ := ofExcept_eq_ok_iff.1 hend
  obtain ⟨_, _, hcomment, h₂⟩ := bind_eq_ok_iff.1 h₁
  obtain rfl := comment_eq_ok_iff.1 hcomment
  obtain ⟨symbols, hset, rfl⟩ := onSymbols_eq_ok_iff.1 h₂
  obtain ⟨_, _, rfl⟩ := Symbols.set_eq_ok_iff.1 hset
  exact ⟨rfl, fun other => Symbols.get?_insert _ name other _⟩

/-- A declaration that succeeds is accepted as its words make it. -/
theorem accepts_of_declareFunction {s : Scanner} (h : declareFunction s c = .ok () c') :
    ∃ d, declared? s c = some d ∧ Accepts d c c' := by
  obtain ⟨⟨name, t⟩, _, hn, h₁⟩ := bind_eq_ok_iff.1 h
  obtain ⟨cs, hname, rfl, rfl⟩ := required_eq_ok hn
  obtain ⟨⟨shape, u⟩, _, hs, h₂⟩ := bind_eq_ok_iff.1 h₁
  obtain ⟨ws, hshape, rfl, rfl⟩ := required_eq_ok hs
  obtain ⟨params, c, hp, h₃⟩ := bind_eq_ok_iff.1 h₂
  obtain ⟨hparams, rfl⟩ := ofExcept_eq_ok_iff.1 hp
  obtain ⟨⟨constant, v⟩, e, hconstant, h₄⟩ := bind_eq_ok_iff.1 h₃
  obtain ⟨code, e, hc, h₅⟩ := bind_eq_ok_iff.1 h₄
  obtain ⟨hcode, rfl⟩ := ofExcept_eq_ok_iff.1 hc
  dsimp only at hname hshape hparams hconstant hcode h₅
  rw [String.toList_ofList] at hparams
  have hread : ∀ marked, (match (v.skip blanks).word? blanks with
      | some (mark, _) => decide (mark.map Char.toLower = blockCheckMark)
      | none => false) = marked →
      declared? s c = some ⟨String.ofList cs, code, params, marked⟩ := by
    rintro _ rfl
    simp [declared?, hname, hshape, hparams, hconstant, hcode, Except.toOption]
  have hnames : ∀ {c' : Compiler} (d : Declaration), (∀ other, c'.symbols.get? other =
      if d.name = other then some (.function d.code d.params) else e.symbols.get? other) →
      c'.blockChecked = (if d.marked = true then c.blockChecked.insert d.code
        else c.blockChecked) → Accepts d c c' := by
    refine fun d hsymbols hmarks => ⟨(hsymbols _).trans (if_pos rfl), ?_, hmarks⟩
    intro name code params hne h
    exact (hsymbols _).trans ((if_neg (Ne.symm hne)).trans (function_of_constantValue hconstant h))
  have hmarks := sameMarks_constantValue hconstant
  generalize (v.skip blanks).word? blanks = word at h₅ hread
  match word with
  | some (mark, w) =>
    dsimp only at h₅
    split at h₅
    · rename_i hspelled
      obtain ⟨_, _, hinsert, h₆⟩ := bind_eq_ok_iff.1 h₅
      obtain rfl := modify_eq_ok_iff.1 hinsert
      rw [pure_bind] at h₆
      obtain ⟨hchecked, hsymbols⟩ := of_declared_eq_ok h₆
      refine ⟨_, hread true (by simpa using hspelled), hnames _ hsymbols ?_⟩
      rw [hchecked, if_pos rfl]
      exact congrArg (List.insert code) hmarks
    · obtain ⟨_, _, hthrow, _⟩ := bind_eq_ok_iff.1 h₅
      exact absurd hthrow throw_ne_ok
  | none =>
    dsimp only at h₅
    rw [pure_bind] at h₅
    obtain ⟨hchecked, hsymbols⟩ := of_declared_eq_ok h₅
    refine ⟨_, hread false rfl, hnames _ hsymbols ?_⟩
    rw [hchecked, if_neg Bool.false_ne_true, hmarks]

/-- A statement that is a declaration and succeeds. -/
theorem accepts_of_statement {text : List Char} (hdeclares : IsDeclaration text c)
    (h : statement text c = .ok () c') : ∃ d, declaration? text c = some d ∧ Accepts d c c' := by
  obtain ⟨head, s, hhead, hsymbol⟩ := hdeclares
  rw [statement_of_symbol hhead hsymbol] at h
  obtain ⟨d, hd, haccepts⟩ := accepts_of_declareFunction h
  refine ⟨d, ?_, haccepts⟩
  rw [declaration?, hhead]
  exact (if_pos hsymbol).trans hd

-- ============================================================================
-- Runs with declarations
-- ============================================================================

/-- A step of a compile run that is no declaration, whether it goes well or not. -/
inductive PlainStep (c : Compiler) : Compiler → Prop where
  | file (file : String) : PlainStep c { c with file }
  | loading (file : String) : PlainStep c (loading c file)
  | opening (text : List Char) : PlainStep c (after (opening text) c)
  | statement {text : List Char} (h : ¬ IsDeclaration text c) :
    PlainStep c (after (statement text) c)
  | enumLine (counter : Int64) (text : List Char) : PlainStep c (after (enumLine counter text) c)
  | tableLine (text : List Char) : PlainStep c (after (tableLine text) c)
  | report (e : Error) : PlainStep c (report c e)

theorem PlainStep.sameMarks (h : PlainStep c c') : SameMarks c c' := by
  cases h with
  | file | loading | report => exact rfl
  | opening text => exact compositionalAll_sameMarks.opening text c
  | @statement text h =>
    exact compositionalAll_sameMarks.statement fun head s hhead hsymbol =>
      absurd ⟨head, s, hhead, hsymbol⟩ h
  | enumLine counter text => exact compositionalAll_sameMarks.enumLine counter text c
  | tableLine text => exact compositionalAll_sameMarks.tableLine text c

/-- A compile run comes to the state `c`, and the declarations `ds` were accepted on the way,
the last one first.  Other steps may lie between them, well or not, as long as they leave
the names of the declared functions alone. -/
inductive Comes (config : Config) : List Declaration → Compiler → Prop where
  | fresh : Comes config [] (Compiler.ofConfig config)
  | declares {ds : List Declaration} {c c' : Compiler} {text : List Char} {d : Declaration}
    (h : Comes config ds c) (hd : declaration? text c = some d)
    (hok : statement text c = .ok () c') : Comes config (d :: ds) c'
  | steps {ds : List Declaration} {c c' : Compiler} (h : Comes config ds c) (hstep : PlainStep c c')
    (hnames : ∀ d ∈ ds, c'.symbols.get? d.name = c.symbols.get? d.name) : Comes config ds c'

theorem isDeclaration_of_declaration? {text : List Char} {d : Declaration}
    (h : declaration? text c = some d) : IsDeclaration text c := by
  unfold declaration? at h
  split at h
  · rename_i head s e hhead
    obtain rfl := head?_eq_ok hhead
    split at h
    · rename_i hsymbol
      exact ⟨head, s, hhead, hsymbol⟩
    · cases h
  · cases h

/-- A declaration that was accepted is what its words make. -/
theorem accepts_of_declaration? {text : List Char} {d : Declaration}
    (hd : declaration? text c = some d) (h : statement text c = .ok () c') : Accepts d c c' := by
  obtain ⟨e, he, haccepts⟩ := accepts_of_statement (isDeclaration_of_declaration? hd) h
  rw [hd] at he
  cases he
  exact haccepts

/-- A name stands for the function that its last declaration made of it. -/
theorem Comes.get?_last (h : Comes config ds c) {name : String} {d : Declaration}
    (hlast : Declaration.last? ds name = some d) :
    c.symbols.get? name = some (.function d.code d.params) := by
  induction h with
  | fresh => cases hlast
  | @declares ds c c' text e _ he hok ih =>
    have haccepts := accepts_of_declaration? he hok
    by_cases hname : e.name = name
    · rw [Declaration.last?, List.find?_cons_of_pos (by simpa using hname)] at hlast
      cases hlast
      rw [← hname, haccepts.named]
    · rw [Declaration.last?, List.find?_cons_of_neg (by simpa using hname)] at hlast
      exact haccepts.others _ _ _ (Ne.symm hname) (ih hlast)
  | steps _ _ hnames ih =>
    have hmem := List.mem_of_find?_eq_some hlast
    have hname : d.name = name := by simpa using List.find?_some hlast
    rw [← hname, hnames d hmem, hname]
    exact ih hlast

/-- A number is marked when a declaration of it carried the mark. -/
theorem Comes.marked_iff (h : Comes config ds c) (code : UInt16) :
    code ∈ c.blockChecked ↔ ∃ d ∈ ds, d.code = code ∧ d.marked = true := by
  induction h with
  | fresh => simp [Compiler.ofConfig]
  | @declares ds c c' text e _ he hok ih =>
    have hmarks := (accepts_of_declaration? he hok).marks
    rw [hmarks, List.exists_mem_cons_iff, ← ih]
    cases hmarked : e.marked with
    | true => simp [List.mem_insert_iff, eq_comm]
    | false => simp
  | steps _ hstep _ ih => rw [hstep.sameMarks, ih]

-- ============================================================================
-- Scripts
-- ============================================================================

/-- The statement, taken in the state `c`, leaves all functions alone unless it is a
declaration. -/
def LeavesFunctions (text : List Char) (c : Compiler) : Prop :=
  ¬ IsDeclaration text c → ∀ name code params,
    c.symbols.get? name = some (.function code params) →
    (after (statement text) c).symbols.get? name = some (.function code params)

theorem Comes.function (h : Comes config ds c) {d : Declaration} (hd : d ∈ ds) :
    ∃ code params, c.symbols.get? d.name = some (.function code params) := by
  obtain ⟨e, he⟩ : ∃ e, Declaration.last? ds d.name = some e :=
    Option.isSome_iff_exists.1 (List.find?_isSome.2 ⟨d, hd, by simp⟩)
  exact ⟨_, _, h.get?_last he⟩

theorem Comes.statement {text : List Char} (h : Comes config ds c)
    (hok : statement text c = .ok () c') (hleaves : LeavesFunctions text c) :
    ∃ new, Comes config (new ++ ds) c' := by
  by_cases hdeclares : IsDeclaration text c
  · obtain ⟨d, hd, _⟩ := accepts_of_statement hdeclares hok
    exact ⟨[d], h.declares hd hok⟩
  · have hafter : after (Compile.statement text) c = c' := by rw [after, hok]
    refine ⟨[], hafter ▸ h.steps (.statement hdeclares) fun d hd => ?_⟩
    obtain ⟨code, params, hfunction⟩ := h.function hd
    rw [hfunction, hleaves hdeclares _ _ _ hfunction]

theorem Comes.statements {texts : List (List Char)} (h : Comes config ds c)
    (hok : texts.forM Compile.statement c = .ok () c')
    (hleaves : ∀ text d, Visits Compile.statement texts c text d → LeavesFunctions text d) :
    ∃ new, Comes config (new ++ ds) c' := by
  induction texts generalizing c ds with
  | nil =>
    obtain ⟨_, rfl⟩ := pure_eq_ok_iff.1 hok
    exact ⟨[], h⟩
  | cons text texts ih =>
    obtain ⟨_, d, hstatement, hrest⟩ := bind_eq_ok_iff.1 hok
    obtain ⟨new, hnew⟩ := h.statement hstatement (hleaves _ _ (.here text texts c))
    obtain ⟨more, hmore⟩ := ih hnew hrest fun other e he => hleaves _ _ (.later hstatement he)
    exact ⟨more ++ new, by rwa [List.append_assoc]⟩

/-- A line that is accepted. -/
theorem Comes.line {text : List Char} (h : Comes config ds c)
    (hok : Compile.line text c = .ok () c')
    (hleaves : ∀ statements d s e, Compile.opening text c = .ok statements d →
      Visits Compile.statement statements d s e → LeavesFunctions s e) :
    ∃ new, Comes config (new ++ ds) c' := by
  obtain ⟨statements, d, hopening, hrest⟩ := line_eq_ok hok
  have hsymbols : d.symbols = c.symbols :=
    (keeps_opening sameNames_control text c _ d hopening).symbols
  have hafter : after (Compile.opening text) c = d := by rw [after, hopening]
  have hd : Comes config ds d := hafter ▸ h.steps (.opening text) fun _ _ => by
    rw [hafter, hsymbols]
  exact hd.statements hrest fun s e => hleaves statements d s e hopening

/-- Every script that is accepted, and leaves all functions alone but where it declares
them, comes to where it does with some declarations. -/
theorem comes_of_takes {texts : List (List Char)} (h : Comes config ds c)
    (htakes : Takes c texts c')
    (hleaves : ∀ text d statements b s e, Visits Compile.line texts c text d →
      Compile.opening text d = .ok statements b → Visits Compile.statement statements b s e →
      LeavesFunctions s e) : ∃ new, Comes config (new ++ ds) c' := by
  induction htakes generalizing ds with
  | nil => exact ⟨[], h⟩
  | @cons c c' d text texts hline _ ih =>
    obtain ⟨new, hnew⟩ := h.line hline fun statements b s e =>
      hleaves text c statements b s e (.here text texts c)
    obtain ⟨more, hmore⟩ := ih hnew fun other a statements b s e ha =>
      hleaves other a statements b s e (.later hline ha)
    exact ⟨more ++ new, by rwa [List.append_assoc]⟩

-- ============================================================================
-- Calls
-- ============================================================================

/-- The call is rejected before anything of it is written. -/
def CallRejected (ctx : Context) (d : Declaration) (s : Scanner) (kind : ErrorKind) : Prop :=
  ∃ e, ctx.call d.code d.params s = ⟨[], .error e⟩ ∧ e.kind = kind

theorem callRejected_iff {ctx : Context} {d : Declaration} {s : Scanner} {kind : ErrorKind} :
    CallRejected ctx d s kind ↔ ∃ e, ctx.mayCall d.code = .error e ∧ e.kind = kind := by
  rw [CallRejected, Context.call]
  cases ctx.mayCall d.code with
  | error e =>
    have hcall : ∀ f : Unit → Draft s.From,
        Draft.ofExcept (.error e) >>= f = ⟨[], .error e⟩ := fun f => Draft.bind_of_error rfl f
    simp [hcall]
  | ok u =>
    constructor
    · -- the call has written its first item
      rintro ⟨e, herror, _⟩
      exact absurd (congrArg Draft.items herror) (List.cons_ne_nil _ _)
    · rintro ⟨_, herror, _⟩
      cases herror

/-- Directly in a choice and outside the body of a case, every call is out of place. -/
theorem mayCall_of_not_permits (h : ¬ c.Permits) (code : UInt16) :
    c.mayCall code = .error (.of .callOutsideCase) := by
  have hswitch : c.checkSwitch none = .error (.of .callOutsideCase) := by
    unfold Compiler.checkSwitch
    exact if_neg h
  unfold Compiler.mayCall
  rw [hswitch]
  rfl

/-- Anywhere else, a marked function is rejected where a block is open. -/
theorem mayCall_of_permits (h : c.Permits) (code : UInt16) : c.mayCall code =
    if code ∈ c.blockChecked ∧ c.blocks.isComplete = false then
      .error (.of (.callInsideBlock code c.blocks.info))
    else .ok () := by
  unfold Compiler.mayCall
  rw [Compiler.checkSwitch_of_permits h]
  show (if c.blockChecked.contains code && !c.blocks.isComplete then _ else _) = _
  simp only [Bool.and_eq_true, List.contains_iff_mem, Bool.not_eq_true']
  rfl

theorem callRejected_illegal {ctx : Context} (hctx : ctx.mayCall = c.mayCall) (h : ¬ c.Permits)
    (d : Declaration) (s : Scanner) : CallRejected ctx d s .illegalInChoose :=
  callRejected_iff.2 ⟨_, by rw [hctx, mayCall_of_not_permits h], rfl⟩

theorem callRejected_blockCheck_iff {ctx : Context} (hctx : ctx.mayCall = c.mayCall)
    (h : c.Permits) (d : Declaration) (s : Scanner) : CallRejected ctx d s .blockCheck ↔
      d.code ∈ c.blockChecked ∧ c.blocks.isComplete = false := by
  rw [callRejected_iff, hctx, mayCall_of_permits h]
  split
  · rename_i hrejected
    exact ⟨fun _ => hrejected, fun _ => ⟨_, rfl, rfl⟩⟩
  · rename_i hfree
    refine ⟨fun ⟨_, herror, _⟩ => ?_, fun hrejected => absurd hrejected hfree⟩
    cases herror

/-- A call that is rejected leaves the state as it is. -/
theorem emit_of_rejected {d : Declaration} {s : Scanner} {kind : ErrorKind}
    (h : CallRejected c.context d s kind) :
    ∃ e, emit (·.call d.code d.params s) c = .error e c ∧ e.kind = kind := by
  obtain ⟨e, hcall, hkind⟩ := h
  refine ⟨e, ?_, hkind⟩
  unfold emit
  dsimp only
  rw [hcall]
  rfl

/-- The operand at `s` is the name, and `t` is behind it. -/
structure NamesOperand (name : String) (s t : Scanner) : Prop where
  word : s.word? operandStop = some (name.toList, t)
  ne_nil : name.toList ≠ []
  bare : ∀ c ∈ s.rest.head?, c ≠ '"' ∧ c ≠ '#'
  not_digits : Text.isDigits name.toList = false

theorem NamesOperand.operand_eq {name : String} {s t : Scanner} (h : NamesOperand name s t)
    {ctx : Context} {code : UInt16} {params : List Param}
    (hsymbol : ctx.symbols.get? name = some (.function code params)) (first : Bool) :
    ∃ shorter : t.rest.length < s.rest.length, ctx.operand first s = (do
      Draft.put .call
      (fun u => .found u.1 (Nat.lt_of_le_of_lt u.2 shorter)) <$> ctx.call code params t) :=
  ⟨Scanner.length_word_lt h.word h.ne_nil, Context.operand_of_function first h.word h.ne_nil
    h.bare h.not_digits (by rwa [String.ofList_toList])⟩

/-- The mark of a function.  When a declared name is called while a block is open, as a
statement or as an operand, the call is judged by the number that the last declaration of
the name gave it, and it is rejected before anything of it is written.  Directly in a choice,
outside the body of a case, every call is out of place.  Anywhere else it is rejected for its
mark if the last declaration of this name, or of any other with the same number, carried the
mark; and it is not if no declaration of this number did. -/
theorem marks_reject_calls (h : Comes config ds c) (hopen : c.blocks.isComplete = false)
    {name : String} {d : Declaration} (hlast : Declaration.last? ds name = some d) :
    (∀ text s, head? ('%' :: headStop) text c = .ok (some (name, s)) c →
      statement text c = (do let _ ← emit (·.call d.code d.params s) : Compile Unit) c) ∧
    (∀ (ctx : Context) (s t : Scanner) (first : Bool),
      ctx.symbols.get? name = c.symbols.get? name → NamesOperand name s t →
      ∃ shorter : t.rest.length < s.rest.length, ctx.operand first s = (do
        Draft.put .call
        (fun u => .found u.1 (Nat.lt_of_le_of_lt u.2 shorter)) <$> ctx.call d.code d.params t)) ∧
    ∀ (ctx : Context) (s : Scanner), ctx.mayCall = c.mayCall →
      (¬ c.Permits → CallRejected ctx d s .illegalInChoose) ∧
      (c.Permits →
        (∀ other e, Declaration.last? ds other = some e → e.code = d.code → e.marked = true →
          CallRejected ctx d s .blockCheck) ∧
        ((∀ e ∈ ds, e.code = d.code → e.marked = false) →
          ¬ CallRejected ctx d s .blockCheck)) := by
  have hsymbol := h.get?_last hlast
  refine ⟨fun text s hhead => statement_of_symbol hhead hsymbol,
    fun ctx s t first hctx hnames => hnames.operand_eq (hctx.trans hsymbol) first,
    fun ctx s hctx => ⟨fun hplace => callRejected_illegal hctx hplace d s, fun hplace => ?_⟩⟩
  rw [callRejected_blockCheck_iff hctx hplace, h.marked_iff]
  constructor
  · intro other e he hcode hmarked
    exact ⟨⟨e, List.mem_of_find?_eq_some he, hcode, hmarked⟩, hopen⟩
  · rintro hfree ⟨⟨e, he, hcode, hmarked⟩, _⟩
    rw [hfree e he hcode] at hmarked
    cases hmarked

-- ============================================================================
-- Marked functions in blocks
-- ============================================================================

section

open Structured

-- comparing two states should never run the writing of the program
attribute [local irreducible] Program.write Program.writeAll

/-- The state behind the declaration of a function with the number 7. -/
def declaredAs (c : Compiler) (name : String) (marks : List UInt16) : Compiler :=
  { c with
    symbols := c.symbols.insert name (.function 7 [.stop])
    program := c.program.comment ("declare " ++ name ++ " . 7")
    blockChecked := marks }

theorem usual_declaredAs (hc : Usual c) (rest : List Char) (hrest : rest.head? ≠ some '_')
    (marks : List UInt16) : Usual (declaredAs c (String.ofList ('_' :: rest)) marks) :=
  hc.insert_underscored rest hrest rfl rfl

/-- The declaration of a marked function. -/
def markedTick : Declaration :=
  ⟨"_tick", 7, [.stop], true⟩

theorem comes_markedTick : Comes {} [markedTick] (declaredAs (fresh "main") "_tick" [7]) := by
  have hfresh : Comes {} [] (fresh "main") := Comes.fresh.steps (.loading "main") (by simp)
  have hread : declaration? "declare _tick . 7 blockcheck".toList (fresh "main") =
      some markedTick := by decide +kernel
  refine hfresh.declares hread ?_
  exact (statement_word (follows_blank "_tick . 7 blockcheck".toList)
    ((usual_fresh "main").words .declare)).trans rfl

/-- Inside a branch the calls of a marked function are rejected. -/
theorem marked_tick_rejected : ∃ c, Comes {} [markedTick] c ∧ c.blocks.isComplete = false ∧
    Declaration.last? [markedTick] "_tick" = some markedTick ∧ c.Permits ∧
    ∀ s, CallRejected c.context markedTick s .blockCheck := by
  have hsteps : Comes {} [markedTick]
      (after (opening "if (_tick)".toList) (declaredAs (fresh "main") "_tick" [7])) :=
    comes_markedTick.steps (.opening _) (by decide +kernel)
  have hopen : (after (opening "if (_tick)".toList)
      (declaredAs (fresh "main") "_tick" [7])).blocks.isComplete = false := by decide +kernel
  have hplace : (after (opening "if (_tick)".toList)
      (declaredAs (fresh "main") "_tick" [7])).Permits := by
    unfold Compiler.Permits
    decide +kernel
  have hlast : Declaration.last? [markedTick] "_tick" = some markedTick := by decide
  refine ⟨_, hsteps, hopen, hlast, hplace, fun s => ?_⟩
  obtain ⟨_, _, hcalls⟩ := marks_reject_calls hsteps hopen hlast
  exact ((hcalls _ s rfl).2 hplace).1 "_tick" markedTick hlast rfl rfl

/-- A line that is nothing but a call of the function, where such a call is rejected. -/
theorem line_tick_rejected {kind : ErrorKind} (hconfig : c.config = {})
    (hsymbol : c.symbols.get? "_tick" = some (.function 7 [.stop]))
    (hcall : CallRejected c.context markedTick ⟨5, []⟩ kind) :
    ∃ e, line "_tick".toList c = .error e c ∧ e.kind = kind := by
  obtain ⟨e, hemit, hkind⟩ := emit_of_rejected hcall
  have hstatements : Source.statements c.config.stem "_tick".toList = .ok ["_tick".toList] := by
    rw [hconfig]
    rfl
  refine ⟨e, ?_, hkind⟩
  rw [line_of_symbol rfl rfl hsymbol nofun hstatements]
  exact bind_eq_error_iff.2 (.inl hemit)

theorem line_declare_tick : line "declare _tick . 7 blockcheck".toList (fresh "main") =
    .ok () (declaredAs (fresh "main") "_tick" [7]) := by
  have hline : IsLine ("_tick . 7 blockchec".toList ++ ['k']) :=
    isLine_plain (List.all_eq_true.1 (by decide +kernel)) (by decide)
  exact (line_headed_eq_ok_iff (usual_fresh "main") .declare hline).2 ⟨rfl, _, rfl, rfl⟩

/-- Directly in a choice, the call of a marked function is out of place. -/
theorem exists_markedChoice : ∃ c, Takes (fresh "main")
      (["declare _tick . 7 blockcheck", "choose 1"].map String.toList) c ∧
    c.blocks.isComplete = false ∧
    ∃ e, line "_tick".toList c = .error e c ∧ e.kind = .illegalInChoose := by
  have husual : Usual (declaredAs (fresh "main") "_tick" [7]) :=
    usual_declaredAs (usual_fresh "main") "tick".toList (by decide) [7]
  obtain ⟨symbols, hchoose⟩ := line_choose_of_ifDepth husual (e := one) rfl rfl
    (by decide) (by decide) (by decide) trivial
  obtain ⟨symbols', _, _, hsymbols, _, _, _, hstate⟩ := of_line_choose_eq_ok husual hchoose
  obtain rfl : symbols = symbols' := congrArg Compiler.symbols hstate
  refine ⟨_, .cons line_declare_tick (.cons hchoose (.nil _)), rfl, ?_⟩
  refine line_tick_rejected rfl ?_ (callRejected_illegal rfl ?_ _ _)
  · rcases hsymbols with rfl | rfl <;> decide +kernel
  · rintro (h | h)
    · cases h
    · exact h (Stack.top?_push _ _)

/-- In a branch, the call of an unmarked function is rejected for the mark of another one
with the same number. -/
theorem exists_sharedNumber : ∃ c, Takes (fresh "main")
      (["declare _tock . 7 blockcheck", "declare _tick . 7", "if 1"].map String.toList) c ∧
    c.blocks.isComplete = false ∧
    ∃ e, line "_tick".toList c = .error e c ∧ e.kind = .blockCheck := by
  have htock : IsLine ("_tock . 7 blockchec".toList ++ ['k']) :=
    isLine_plain (List.all_eq_true.1 (by decide +kernel)) (by decide)
  have htick : IsLine ("_tick . ".toList ++ ['7']) :=
    isLine_plain (List.all_eq_true.1 (by decide +kernel)) (by decide)
  have hmarked : line "declare _tock . 7 blockcheck".toList (fresh "main") =
      .ok () (declaredAs (fresh "main") "_tock" [7]) :=
    (line_headed_eq_ok_iff (usual_fresh "main") .declare htock).2 ⟨rfl, _, rfl, rfl⟩
  have husual : Usual (declaredAs (fresh "main") "_tock" [7]) :=
    usual_declaredAs (usual_fresh "main") "tock".toList (by decide) [7]
  have hunmarked : line "declare _tick . 7".toList (declaredAs (fresh "main") "_tock" [7]) =
      .ok () (declaredAs (declaredAs (fresh "main") "_tock" [7]) "_tick" [7]) :=
    (line_headed_eq_ok_iff husual .declare htick).2 ⟨rfl, _, rfl, rfl⟩
  have hboth : Usual (declaredAs (declaredAs (fresh "main") "_tock" [7]) "_tick" [7]) :=
    usual_declaredAs husual "tick".toList (by decide) [7]
  have hif := (line_if_eq_ok_iff hboth one).2 ⟨rfl, by decide, by decide, trivial, rfl⟩
  refine ⟨_, .cons hmarked (.cons hunmarked (.cons hif (.nil _))), rfl, ?_⟩
  refine line_tick_rejected rfl (by decide +kernel)
    ((callRejected_blockCheck_iff rfl ?_ _ _).2 ⟨by decide +kernel, rfl⟩)
  unfold Compiler.Permits
  decide +kernel

/-- Neither is every call of a marked function in a block rejected for the mark, nor only
these: directly in a choice the place comes first, and a mark is one of the number. -/
theorem marks_not_by_name :
    (∃ c, Takes (fresh "main")
        (["declare _tick . 7 blockcheck", "choose 1"].map String.toList) c ∧
      c.blocks.isComplete = false ∧
      ∃ e, line "_tick".toList c = .error e c ∧ e.kind = .illegalInChoose) ∧
    ∃ c, Takes (fresh "main")
        (["declare _tock . 7 blockcheck", "declare _tick . 7", "if 1"].map String.toList) c ∧
      c.blocks.isComplete = false ∧
      ∃ e, line "_tick".toList c = .error e c ∧ e.kind = .blockCheck :=
  ⟨exists_markedChoice, exists_sharedNumber⟩

end

end Compile

end ScriptMachine
