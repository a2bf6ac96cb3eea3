/-
  ScriptMachine.Proofs.Choices.Legality

  Where commands and calls are legal in a choice.  Directly in a choice, a line with a
  command or a declared function is rejected for its place exactly when the nesting of the
  lines before it says that no body of a case is open; elsewhere no line is, but for groups
  on the line that leaves a branch or loop (`Compile.case_legality`).

  Permission is asked for twice: for the word of a line, before anything of the line is
  compiled, and for each call.  A line that has the permission can lose it only between the
  two, by its own bookkeeping (`Compile.closing_of_rejects`).
-/

import ScriptMachine.Proofs.Choices.Nesting
import ScriptMachine.Proofs.Columns.Diagnostics
import ScriptMachine.Proofs.Structured.Refinement

namespace ScriptMachine

/-! ## Calls that may not be made -/

namespace Context

open Structured

variable {ctx : Context} {code : UInt16} {params : List Param} {e : Error}

theorem outcome_call (hmay : ctx.mayCall code = .error e) (s : Scanner) :
    (ctx.call code params s).outcome = .error e := by
  rw [call, hmay]
  rfl

/-- The name of a function as an operand. -/
theorem operand_of_function (first : Bool) {s t : Scanner} {w : List Char}
    (hword : s.word? operandStop = some (w, t)) (hne : w ≠ [])
    (hhead : ∀ c ∈ s.rest.head?, c ≠ '"' ∧ c ≠ '#') (hdigits : Text.isDigits w = false)
    (hsymbol : ctx.symbols.get? (String.ofList w) = some (.function code params)) :
    ctx.operand first s = (do
      Draft.put .call
      (fun u => .found u.1 (Nat.lt_of_le_of_lt u.2 (Scanner.length_word_lt hword hne))) <$>
        ctx.call code params t : Draft s.Optional) := by
  rw [operand]
  split
  · rename_i h
    exact absurd rfl (hhead '"' (congrArg List.head? h)).1
  · rename_i h
    exact absurd rfl (hhead '#' (congrArg List.head? h)).2
  · dsimp only
    split
    · rename_i h
      rw [hword] at h
      cases h
    · rename_i h
      rw [hword] at h
      cases h
      rw [dif_neg hne, if_neg (by simp [hdigits]), hsymbol]

section
variable {w : List Char} (hw : IsWord w) (hdigits : Text.isDigits w = false)
  (hsymbol : ctx.symbols.get? (String.ofList w) = some (.function code params))
  (hmay : ctx.mayCall code = .error e)
include hw hdigits hsymbol hmay

theorem outcome_operand (first : Bool) (o : Nat) :
    (ctx.operand first ⟨o, w⟩).outcome = .error e := by
  have hword := @IsWord.word? w hw operandStop [] o (by decide) (by simp)
  rw [List.append_nil] at hword
  have hfront : ∀ c ∈ w.head?, c ≠ '"' ∧ c ≠ '#' := by
    intro c hc
    have hord := hw.2 c (List.mem_of_mem_head? hc)
    constructor <;> (rintro rfl; exact absurd hord (by decide))
  rw [operand_of_function first hword hw.1 hfront hdigits hsymbol, Draft.bind_of_ok (a := ()) rfl,
    Draft.outcome_map, outcome_call hmay]
  rfl

/-- An assignment of the result of a call. -/
theorem outcome_assignment {name : String} (hname : Item.textFits name = true) (o : Nat) :
    (ctx.assignment name ⟨o, '=' :: w⟩).outcome = .error e := by
  have hfront : ∀ set : List Char, set.all (fun d => !isOrdinary d) = true →
      ∀ c ∈ w.head?, set.contains c = false := fun set hset c hc =>
    contains_of_isOrdinary (hw.2 c (List.mem_of_mem_head? hc)) hset
  have hop : Scanner.operator? assigning ⟨o, '=' :: w⟩ = some (['='], ⟨o + 1, w⟩) :=
    @Scanner.operator?_append _ ['='] w o (by decide) (List.all_eq_true.1 (by decide))
      (hfront _ (by decide))
  have hoperand : (ctx.operand true (Scanner.skip (blanks ++ ['[']) ⟨o + 1, w⟩)).outcome =
      .error e := by
    rw [Scanner.skip_of_head (hfront _ (by decide))]
    exact outcome_operand hw hdigits hsymbol hmay true (o + 1)
  have hvalue : (ctx.value ⟨o + 1, w⟩).outcome = .error e := by
    rw [value, expression, Draft.bind_of_error hoperand]
  have hskip : Scanner.skip blanks ⟨o, '=' :: w⟩ = ⟨o, '=' :: w⟩ :=
    Scanner.skip_of_head (by intro c hc; cases hc; decide)
  unfold assignment
  dsimp only
  rw [hskip, show ['=', '+', '-', '*', '/', '%'] = assigning from rfl, hop]
  dsimp only
  rw [show assignmentOpcode? ['='] = some .mov from rfl]
  dsimp only
  rw [Draft.bind_of_ok (a := ()) rfl]
  dsimp only
  rw [Draft.bind_of_ok (Item.check_var_iff.2 hname)]
  dsimp only
  rw [if_neg (by decide), Draft.bind_of_error hvalue]

end

end Context

namespace Compile

variable {α β : Type} {c c' d : Compiler} {fs : Frames} {text : List Char}

/-! ## Rejections -/

/-- The step fails for standing directly in a choice, outside the body of a case. -/
def Rejects (x : Compile α) (c : Compiler) : Prop :=
  ∃ e c', x c = .error e c' ∧ e.kind = .illegalInChoose

theorem FitsWhere.not_rejects {S : Compiler → Prop} {Q : α → Prop} {x : Compile α}
    (h : FitsWhere S c.config.stem text Q x) (hc : S c) : ¬ Rejects x c := by
  rintro ⟨e, c', hx, hkind⟩
  have herror := h c rfl
  rw [hx] at herror
  exact herror.kind hc hkind

theorem not_rejects_pure (a : α) : ¬ Rejects (pure a) c := by
  rintro ⟨e, c', h, _⟩
  cases h

theorem bind_eq_error_iff {x : Compile α} {f : α → Compile β} {e : Error} :
    (x >>= f) c = .error e c' ↔
      x c = .error e c' ∨ ∃ a d, x c = .ok a d ∧ f a d = .error e c' := by
  show EStateM.bind x f c = _ ↔ _
  unfold EStateM.bind
  cases x c <;> simp

theorem rejects_bind {x : Compile α} {f : α → Compile β} :
    Rejects (x >>= f) c ↔ Rejects x c ∨ ∃ a d, x c = .ok a d ∧ Rejects (f a) d := by
  constructor
  · rintro ⟨e, c', h, hkind⟩
    rcases bind_eq_error_iff.1 h with h | ⟨a, d, hd, h⟩
    · exact .inl ⟨e, c', h, hkind⟩
    · exact .inr ⟨a, d, hd, e, c', h, hkind⟩
  · rintro (⟨e, c', h, hkind⟩ | ⟨a, d, hd, e, c', h, hkind⟩)
    · exact ⟨e, c', bind_eq_error_iff.2 (.inl h), hkind⟩
    · exact ⟨e, c', bind_eq_error_iff.2 (.inr ⟨a, d, hd, h⟩), hkind⟩

theorem rejects_forM_cons {f : α → Compile Unit} {a : α} {as : List α} :
    Rejects ((a :: as).forM f) c ↔
      Rejects (f a) c ∨ ∃ d, f a c = .ok () d ∧ Rejects (as.forM f) d := by
  refine rejects_bind.trans (or_congr_right ?_)
  exact ⟨fun ⟨_, d, h⟩ => ⟨d, h⟩, fun ⟨d, h⟩ => ⟨(), d, h⟩⟩

theorem rejects_inFragment {statement : List Char} {x : Compile α} :
    Rejects (inFragment statement x) c ↔ Rejects x c := by
  unfold Rejects inFragment
  cases hx : x c with
  | ok a d => simp
  | error e d => simp

theorem rejects_forM_congr {f g : α → Compile Unit} {as : List α}
    (hok : ∀ a c c', f a c = .ok () c' ↔ g a c = .ok () c')
    (hrejects : ∀ a c, Rejects (f a) c ↔ Rejects (g a) c) :
    Rejects (as.forM f) c ↔ Rejects (as.forM g) c := by
  induction as generalizing c with
  | nil => exact Iff.rfl
  | cons a as ih =>
    rw [rejects_forM_cons, rejects_forM_cons]
    simp only [hok, hrejects, ih]

/-- A line is rejected by what it does first or by one of its statements. -/
theorem rejects_line : Rejects (line text) c ↔
    Rejects (opening text) c ∨
      ∃ ss d, opening text c = .ok ss d ∧ Rejects (ss.forM statement) d := by
  rw [line_eq, rejects_bind]
  refine or_congr_right (exists_congr fun ss => exists_congr fun d => and_congr_right fun _ => ?_)
  refine rejects_forM_congr (fun s c c' => ?_) fun s c => ?_
  · split
    · exact Iff.rfl
    · exact inFragment_eq_ok_iff
  · split
    · exact Iff.rfl
    · exact rejects_inFragment

/-! ## The word of a line -/

/-- Without permission, a command is rejected by its word. -/
theorem rejects_opening (hc : Tidy c) {word : Word} (hword : firstWord? headStop text = some word)
    (hclause : word ∉ Compiler.clauseWords) (hperm : ¬ c.Permits) : Rejects (opening text) c := by
  obtain ⟨s, hs⟩ := head?_eq (headOf_ne_nil hword)
  obtain ⟨e, he, hkind⟩ := @Compiler.checkSwitch_of_not_permits c hperm (some word) (by
    rintro w ⟨⟩
    exact hclause)
  have hask : Rejects (ask (·.checkSwitch (some word))) c := by
    refine ⟨e, c, ?_, hkind⟩
    unfold ask
    dsimp only
    rw [he]
  have hrest : ∀ f : Unit → Compile (List (List Char)),
      Rejects (ask (·.checkSwitch (some word)) >>= f) c := fun f => rejects_bind.2 (.inl hask)
  obtain ⟨e, c', h, hkind⟩ := hrest fun _ => do
    control word
    ofExcept (Source.statements (← get).config.stem text)
  refine ⟨e, c', ?_, hkind⟩
  unfold opening
  rw [hs, pure_bind]
  dsimp only
  rw [get_bind, (hc.commands _ _).2 hword]
  exact h

/-! ## Statements -/

/-- Where calls are permitted, the statements of a line are not rejected: its groups stay
in their place. -/
theorem not_rejects_statements {groups : List (List Char)} {last : List Char} (hc : Tidy c)
    (hgroups : ∀ s ∈ groups, Source.IsGroup c.config.stem s) (hperm : c.Permits) :
    ¬ Rejects ((groups ++ [last]).forM statement) c := by
  induction groups generalizing c with
  | nil =>
    rw [List.nil_append, rejects_forM_cons]
    rintro (h | ⟨d, _, h⟩)
    · exact fitsPermitted_statement.not_rejects hperm h
    · exact not_rejects_pure () h
  | cons s groups ih =>
    obtain ⟨hs, hmore⟩ := List.forall_mem_cons.1 hgroups
    rw [List.cons_append, rejects_forM_cons]
    rintro (h | ⟨d, hd, h⟩)
    · exact fitsPermitted_statement.not_rejects hperm h
    · obtain ⟨htidy, haside⟩ := aside_group hc hs hd
      rw [← haside.config] at hmore
      exact ih htidy hmore (haside.place.permits.2 hperm) h

/-- A draft that fails with the error of a call that is not permitted. -/
theorem rejects_emit {f : Context → Draft α} {code : UInt16} (hperm : ¬ c.Permits)
    (hf : ∀ e, c.context.mayCall code = .error e → (f c.context).outcome = .error e) :
    Rejects (emit f) c := by
  obtain ⟨e, he, hkind⟩ := @Compiler.checkSwitch_of_not_permits c hperm none nofun
  have hmay : c.context.mayCall code = .error e := by
    show (c.checkSwitch none >>= fun _ => _) = _
    rw [he]
    rfl
  refine ⟨e, { c with program := c.program.writeAll (f c.context).items }, ?_, hkind⟩
  unfold emit
  dsimp only
  rw [hf e hmay]

/-- A statement that calls a function. -/
theorem rejects_statement {code : UInt16} {params : List Param}
    (hne : headOf ('%' :: headStop) text ≠ [])
    (hsymbol : c.symbols.get? (String.ofList (headOf ('%' :: headStop) text)) =
      some (.function code params)) (hperm : ¬ c.Permits) : Rejects (statement text) c := by
  obtain ⟨s, hs⟩ := head?_eq hne
  have hcall : Rejects (emit (·.call code params s)) c :=
    rejects_emit hperm fun e he => Context.outcome_call he s
  obtain ⟨e, c', hcall, hkind⟩ := hcall
  refine ⟨e, c', ?_, hkind⟩
  rw [statement_of_symbol (congrFun hs c) hsymbol]
  exact bind_eq_error_iff.2 (.inl hcall)

open Structured in
/-- A group that calls a function. -/
theorem rejects_group {n : Nat} (hn : n ≤ 65535) {w : List Char} (hw : IsWord w)
    (hdigits : Text.isDigits w = false) {code : UInt16} {params : List Param}
    (hfree : Grouped.Free c.symbols (Grouped.temporaryName n))
    (hsymbol : c.symbols.get? (String.ofList w) = some (.function code params))
    (hperm : ¬ c.Permits) : Rejects (statement (Grouped.temporary n ++ '=' :: w)) c := by
  have hnoted := Grouped.notes_noted c (Grouped.temporaryName n)
  have hplace : SamePlace c (Grouped.noted c (Grouped.temporaryName n)) := by
    unfold Grouped.noted
    split <;> exact ⟨rfl, rfl, rfl⟩
  have hfunction : (Grouped.noted c (Grouped.temporaryName n)).symbols.get? (String.ofList w) =
      some (.function code params) := by
    rcases hnoted.names (String.ofList w) with heq | ⟨hnone, _⟩
    · rw [heq, hsymbol]
    · rw [hsymbol] at hnone
      cases hnone
  rw [Rejects, Grouped.statement_temporary hfree]
  exact rejects_emit (fun h => hperm (hplace.permits.1 h)) fun e he =>
    Context.outcome_assignment hw hdigits hfunction he (Grouped.textFits_temporaryName hn) _

/-! ## Lines with permission -/

theorem not_rejects_closing {word : Word} (hword : word = .endIf ∨ word = .endWhile)
    (s : Scanner) : ¬ Rejects (command word s) c := by
  rcases hword with rfl | rfl
  · have hmark : FitsAnyway c.config.stem [] (command .endIf s) := fitsAnyway_modify fun _ => rfl
    exact hmark.not_rejects trivial
  · have hleave : FitsAnyway c.config.stem [] (command .endWhile s) := fitsAnyway_leaveWhile
    exact hleave.not_rejects trivial

/-- A line that has the permission is rejected only when it leaves a branch or a loop, and
the permission with it, and its groups ask for it then. -/
theorem closing_of_rejects (hc : Tidy c) (hplaced : Placed fs c) (htext : PlainHead text)
    (hperm : c.Permits) (h : Rejects (line text) c) :
    ∃ word, firstWord? headStop text = some word ∧
      (word = .endIf ∧ fs.head? = some .branch ∨ word = .endWhile ∧ fs.head? = some .loop) ∧
      '(' ∈ text ∧ fs.tail.head? = some (.choice false) := by
  rcases rejects_line.1 h with h | ⟨ss, d, hopening, h⟩
  · exact absurd h ((fitsPermitted_opening text).not_rejects hperm)
  rcases hc.of_opening_eq_ok hopening with ⟨rfl, _⟩ | ⟨hne, hss, hword, hnone⟩
  · exact absurd h (not_rejects_pure ())
  obtain ⟨groups, last, rfl, hgroups, hlast⟩ := htext.parts hne hss
  have hnames : SameNames c d := keeps_opening sameNames_control text _ _ _ hopening
  have hd : Tidy d := (SameNames.redefines hnames : Redefines False (fun _ => False) c d).tidy hc
  rw [← hnames.config] at hgroups
  have hlost : ¬ d.Permits := fun hperm => not_rejects_statements hd hgroups hperm h
  cases hfirst : firstWord? headStop text with
  | none =>
    obtain rfl := hnone hfirst
    exact absurd hperm hlost
  | some word =>
    obtain ⟨_, hcontrol⟩ := hword word hfirst
    -- the end of a choice leaves the mark as it was
    by_cases hend : word = .endChoose
    · subst hend
      obtain ⟨htop, _, _, _, _, _, _, rfl⟩ := closeChoose_eq_ok_iff.1 hcontrol
      exact absurd (.inl (hperm.resolve_right (not_not.2 htop))) hlost
    obtain ⟨hturned, hbranch, hloop⟩ := placed_control hplaced hend hcontrol
    rw [hturned.permits_iff, not_not] at hlost
    have hclosing : word = .endIf ∨ word = .endWhile := by
      rw [hplaced.permits_iff] at hperm
      cases word with
      | endIf => exact .inl rfl
      | endWhile => exact .inr rfl
      | endChoose => exact absurd rfl hend
      | ifThen | whileDo => cases hlost
      | _ => exact absurd hlost hperm
    refine ⟨word, rfl, ?_, ?_, ?_⟩
    · exact hclosing.imp (fun h => ⟨h, hbranch h⟩) (fun h => ⟨h, hloop h⟩)
    · -- without groups, there is only the command, and it asks for nothing
      by_contra hparen
      have hsingle := Source.statements_unopened _ hparen hss
      obtain ⟨s, hs⟩ := hd.statement_eq (hlast.trans hfirst)
      obtain rfl : groups = [] := by
        have hlength := congrArg List.length hsingle
        simpa using hlength
      rw [List.nil_append, rejects_forM_cons] at h
      rcases h with ⟨e, c', h, hkind⟩ | ⟨_, _, h⟩
      · exact not_rejects_closing hclosing s ⟨e, c', hs.symm.trans h, hkind⟩
      · exact not_rejects_pure () h
    · rcases hclosing with rfl | rfl <;> exact hlost

/-! ## Lines in a choice -/

/-- A command directly in a choice, which does not go on with the choice, is rejected for
its place exactly when no body of a case is open. -/
theorem rejects_command_iff (hc : Tidy c) (hplaced : Placed fs c) (htext : PlainHead text)
    {body : Bool} (hhead : fs.head? = some (.choice body)) {word : Word}
    (hword : firstWord? headStop text = some word) (hclause : word ∉ Compiler.clauseWords) :
    Rejects (line text) c ↔ body = false := by
  constructor
  · intro h
    by_contra hbody
    have hperm : c.Permits := by
      rw [hplaced.permits_iff, hhead]
      simpa using hbody
    obtain ⟨_, _, ⟨_, hinner⟩ | ⟨_, hinner⟩, _⟩ := closing_of_rejects hc hplaced htext hperm h
    · rw [hhead] at hinner
      cases hinner
    · rw [hhead] at hinner
      cases hinner
  · rintro rfl
    have hperm : ¬ c.Permits := by rw [hplaced.permits_iff, not_not, hhead]
    exact rejects_line.2 (.inl (rejects_opening hc hword hclause hperm))

/-- The first word of a line is a declared function. -/
def StartsCall (text : List Char) (c : Compiler) : Prop :=
  headOf headStop text ≠ [] ∧ ∃ code params,
    c.symbols.get? (String.ofList (headOf headStop text)) = some (.function code params)

theorem StartsCall.opening_eq (h : StartsCall text c) :
    opening text c = ofExcept (Source.statements c.config.stem text) c := by
  obtain ⟨hne, code, params, hsymbol⟩ := h
  obtain ⟨s, hs⟩ := head?_eq hne
  exact opening_of_passes (congrFun hs c) (.inl ⟨_, hsymbol, nofun⟩)

/-- Behind its groups, a line that starts with a function is rejected where calls are not
permitted. -/
theorem StartsCall.rejects_last (h : StartsCall text c) (hc : Tidy c) (hperm : ¬ c.Permits)
    {groups : List (List Char)} {last : List Char}
    (hgroups : ∀ s ∈ groups, Source.IsGroup c.config.stem s)
    (hlast : headOf ('%' :: headStop) last = headOf headStop text)
    (hd : groups.forM statement c = .ok () d) : Rejects (statement last) d := by
  obtain ⟨hne, code, params, hsymbol⟩ := h
  obtain ⟨_, haside⟩ := aside_groups hc hgroups hd
  have hfunction := haside.functions _ code params hsymbol
  rw [← hlast] at hne hfunction
  exact rejects_statement hne hfunction fun hd => hperm (haside.place.permits.1 hd)

/-- A line that starts with a function, where calls are not permitted: it is not accepted,
and it is rejected for its place unless it cannot be taken apart or one of its groups is
rejected before. -/
theorem StartsCall.rejects (h : StartsCall text c) (hc : Tidy c) (htext : PlainHead text)
    (hperm : ¬ c.Permits) :
    (∀ c', line text c ≠ .ok () c') ∧
      ∀ groups last d, Source.statements c.config.stem text = .ok (groups ++ [last]) →
        groups.forM statement c = .ok () d → Rejects (line text) c := by
  constructor
  · intro c' hline
    obtain ⟨ss, d, hd, hss⟩ := line_eq_ok hline
    rw [h.opening_eq] at hd
    obtain ⟨hstatements, rfl⟩ := ofExcept_eq_ok_iff.1 hd
    obtain ⟨groups, last, rfl, hgroups, hlast⟩ := Source.statements_heads h.1 htext.1 hstatements
    obtain ⟨e, he, hrest⟩ := Grouped.forM_append_eq_ok_iff.1 hss
    rw [Grouped.forM_singleton_eq_ok_iff] at hrest
    obtain ⟨_, _, herror, _⟩ := h.rejects_last hc hperm hgroups hlast he
    rw [hrest] at herror
    cases herror
  · intro groups last d hstatements hd
    obtain ⟨groups', last', hss, hgroups, hlast⟩ := Source.statements_heads h.1 htext.1 hstatements
    obtain ⟨rfl, hlasts⟩ := List.append_inj' hss rfl
    cases hlasts
    refine rejects_line.2 (.inr ⟨groups ++ [last], c, ?_, ?_⟩)
    · rw [h.opening_eq, hstatements]
      rfl
    · rw [List.forM_eq_forM, List.forM_append]
      have hlast := h.rejects_last hc hperm hgroups hlast hd
      exact rejects_bind.2 (.inr ⟨(), d, hd, rejects_forM_cons.2 (.inl hlast)⟩)

/-! ## Lines around a `break` -/

section

open Structured

-- comparing two states should never run the writing of the program
attribute [local irreducible] Program.write Program.writeAll

/-- A fresh run behind the declaration of a function. -/
def ticking : Compiler :=
  { fresh "main" with
    symbols := Symbols.initial.insert "_tick" (.function 7 [.stop])
    program := (fresh "main").program.comment "declare _tick . 7" }

theorem line_ticking : line "declare _tick . 7".toList (fresh "main") = .ok () ticking := by
  have hline : IsLine ("_tick . ".toList ++ ['7']) :=
    isLine_plain (List.all_eq_true.1 (by decide +kernel)) (by decide)
  exact (line_headed_eq_ok_iff (usual_fresh "main") .declare hline).2 ⟨rfl, _, rfl, rfl⟩

theorem usual_ticking : Usual ticking :=
  (usual_fresh "main").insert_underscored "tick".toList (by decide) rfl rfl

/-- A declared function, and a choice before its first case. -/
def choiceOpened : List (List Char) :=
  ["declare _tick . 7", "choose 1"].map String.toList

/-- A case that is left from inside a branch. -/
def branchBreak : List (List Char) :=
  choiceOpened ++ ["case 1", "if 1", "break"].map String.toList

/-- A case that is left in a choice inside another. -/
def innerBreak : List (List Char) :=
  choiceOpened ++ ["case 1", "choose 1", "case 1", "break"].map String.toList

/-- The state behind the first line of a choice. -/
def chosen (symbols : Symbols) : Compiler :=
  chooseEntered (ticking.blockOpened .choose)
    ([Instruction.push caseName, .assign .mov caseName one.tree].flatMap Instruction.items)
    symbols ⟨ticking.blocks.allocated, .finish⟩ ticking.switchesInIf (ticking.switchDepth + 1)

/-- The state behind the first case of a choice. -/
def cased (symbols : Symbols) : Compiler :=
  (((chosen symbols).blockLinked .caseOf ⟨0, 0⟩ []).withJump (.code .case :: one.tree.items)
    ⟨0, .step 2⟩).withCase true

theorem exists_chosen : ∃ symbols, Takes (fresh "main") choiceOpened (chosen symbols) ∧
    (Usual (chosen symbols) ∧ (chosen symbols).blocks.Consistent) ∧
    symbols.get? "_tick" = some (.function 7 [.stop]) ∧
    Grouped.Free symbols (Grouped.temporaryName 0) := by
  obtain ⟨symbols, hchoose⟩ := line_choose_of_ifDepth usual_ticking (e := one) rfl rfl
    (by decide) (by decide) (by decide) trivial
  have husual := choose_line usual_ticking (consistent_fresh "main") hchoose
  obtain ⟨symbols', _, _, hsymbols, _, _, _, hstate⟩ := of_line_choose_eq_ok usual_ticking hchoose
  obtain rfl : symbols = symbols' := congrArg Compiler.symbols hstate
  refine ⟨symbols, .cons line_ticking (.cons hchoose (.nil _)), husual, ?_, ?_⟩
  · rcases hsymbols with rfl | rfl <;> decide +kernel
  · rcases hsymbols with rfl | rfl <;> exact .inl (by decide +kernel)

theorem line_cased {symbols : Symbols} (h : Usual (chosen symbols))
    (hb : (chosen symbols).blocks.Consistent) :
    line "case 1".toList (chosen symbols) = .ok () (cased symbols) ∧ Usual (cased symbols) ∧
      (cased symbols).blocks.Consistent := by
  have hcase : line (headed .caseOf one.chars) (chosen symbols) = .ok () (cased symbols) :=
    (line_case_eq_ok_iff h one).2 ⟨checkSwitch_clause _ (.inl rfl), Stack.top?_push _ _, _, _,
      rfl, zero_ne_255, by decide, trivial, rfl⟩
  exact ⟨hcase, case_line h hb hcase⟩

theorem exists_takes_branchBreak : ∃ c, Takes (fresh "main") branchBreak c ∧ Usual c ∧
    c.structures.top? = some .ifThen ∧ (∃ o rest, c.blocks.opened = o :: rest ∧ o.steps ≠ 255) ∧
    c.symbols.get? "_tick" = some (.function 7 [.stop]) ∧
    Grouped.Free c.symbols (Grouped.temporaryName 0) := by
  obtain ⟨symbols, htakes, ⟨husual, hb⟩, htick, hfree⟩ := exists_chosen
  obtain ⟨hcase, husual, _⟩ := line_cased husual hb
  have hroom : 1 < 0xFFFFFF ∧ 1 < Stack.limit := by decide
  have hif := (line_if_eq_ok_iff husual one).2 ⟨if_pos (.inl rfl), hroom.1, hroom.2, trivial, rfl⟩
  have husual : Usual (ifState (cased symbols) one) := husual.of_sameNames ⟨rfl, rfl⟩
  have hbreak := (line_break_eq_ok_iff husual).2 ⟨if_pos (.inl rfl), _, Stack.top?_push _ _, rfl⟩
  refine ⟨_, takes_append_iff.2 ⟨_, htakes, .cons hcase (.cons hif (.cons hbreak (.nil _)))⟩,
    (husual.withJump _ _).withCase _, Stack.top?_push _ _, ⟨_, _, rfl, zero_ne_255⟩, htick, hfree⟩

theorem exists_takes_endIf : ∃ c, Takes (fresh "main") (branchBreak ++ ["endif".toList]) c := by
  obtain ⟨c, htakes, husual, htop, ⟨o, rest, ho, hs⟩, _⟩ := exists_takes_branchBreak
  have hcheck : c.checkSwitch (some .endIf) = .ok () := if_pos (.inr (by simp [htop]))
  have hend := (line_endIf_eq_ok_iff husual).2 ⟨hcheck, htop, o, rest, ho, hs, rfl⟩
  exact ⟨_, takes_append_iff.2 ⟨c, htakes, takes_singleton_iff.2 hend⟩⟩

/-- The end of the branch, with a call in a group. -/
theorem exists_rejects_endIf : ∃ c, Takes (fresh "main") branchBreak c ∧
    Rejects (line "endif (_tick)".toList) c := by
  obtain ⟨c, htakes, husual, htop, ⟨o, rest, ho, hs⟩, htick, hfree⟩ := exists_takes_branchBreak
  obtain ⟨hc, hplaced⟩ := placed_of_fresh (by decide +kernel) htakes
  have hcheck : c.checkSwitch (some .endIf) = .ok () := if_pos (.inr (by simp [htop]))
  have hcontrol : control .endIf c = .ok () (c.blockLeft .endIf o rest) :=
    closeIf_eq_ok_iff.2 ⟨htop, o, rest, ho, hs, rfl⟩
  have hss : Source.statements c.config.stem "endif (_tick)".toList =
      .ok ["$0=_tick".toList, "endif  $0".toList] := by
    rw [husual.config]
    rfl
  have hperm : ¬ (c.blockLeft .endIf o rest).Permits := by
    rw [(placed_control hplaced (by decide) hcontrol).1.permits_iff, not_not]
    decide +kernel
  have hword : firstWord? headStop "endif (_tick)".toList = some .endIf := by decide +kernel
  have hgroup := @rejects_group (c.blockLeft .endIf o rest) 0 (by decide) "_tick".toList
    ⟨by decide, List.all_eq_true.1 (by decide)⟩ (by decide) 7 [.stop] hfree htick hperm
  have hopening := hc.opening_eq_ok hword hcheck hcontrol hss
  exact ⟨c, htakes, rejects_line.2 (.inr ⟨_, _, hopening, rejects_forM_cons.2 (.inl hgroup)⟩)⟩

theorem exists_takes_innerBreak : ∃ c, Takes (fresh "main") innerBreak c := by
  obtain ⟨symbols, htakes, ⟨husual, hb⟩, _⟩ := exists_chosen
  obtain ⟨hcase, husual, hb⟩ := line_cased husual hb
  have hroom : 1 < 0xFFFFFF ∧ 1 < Stack.limit := by decide
  obtain ⟨symbols', hchoose⟩ := line_choose_of_ifDepth husual (e := one) (if_pos (.inl rfl)) rfl
    hroom.1 hroom.2 hroom.2 trivial
  obtain ⟨husual, hb⟩ := choose_line husual hb hchoose
  have hinner := (line_case_eq_ok_iff husual one).2 ⟨checkSwitch_clause _ (.inl rfl),
    Stack.top?_push _ _, _, _, rfl, zero_ne_255, show (1 : UInt8) ≠ 255 by decide, trivial, rfl⟩
  obtain ⟨husual, _⟩ := case_line husual hb hinner
  have hbreak := (line_break_eq_ok_iff husual).2 ⟨if_pos (.inl rfl), _, Stack.top?_push _ _, rfl⟩
  exact ⟨_, takes_append_iff.2 ⟨_, htakes,
    .cons hcase (.cons hchoose (.cons hinner (.cons hbreak (.nil _))))⟩⟩

end

/-! ## Legality -/

/-- Behind accepted lines, which give no word a second name and have no `%` in their first
words, the nesting of these lines tells what is legal.  Directly in a choice, a command
that does not go on with the choice is rejected for its place exactly when no body of a
case is open.  A declared function is not rejected for its place when one is open; when
none is, it is not accepted, and rejected for its place once the line can be taken apart
and its groups are accepted.  Anywhere else a line is rejected for its place only when it
leaves a branch or a loop that lies directly in a choice without an open body, and has a
group. -/
theorem case_legality {c₀ : Compiler} {before : List (List Char)} (hc₀ : Tidy c₀)
    (hplaced₀ : Placed [] c₀) (htakes : Takes c₀ before c)
    (hplain : ∀ t ∈ before ++ [text], PlainHead t) :
    (∀ body word, (nesting before).head? = some (.choice body) →
      firstWord? headStop text = some word → word ∉ Compiler.clauseWords →
      (Rejects (line text) c ↔ body = false)) ∧
    (∀ body, (nesting before).head? = some (.choice body) → StartsCall text c →
      (body = true → ¬ Rejects (line text) c) ∧
      (body = false → (∀ c', line text c ≠ .ok () c') ∧
        ∀ groups last d, Source.statements c.config.stem text = .ok (groups ++ [last]) →
          groups.forM statement c = .ok () d → Rejects (line text) c)) ∧
    ((∀ body, (nesting before).head? ≠ some (.choice body)) → Rejects (line text) c →
      (firstWord? headStop text = some .endIf ∨ firstWord? headStop text = some .endWhile) ∧
        '(' ∈ text ∧ (nesting (before ++ [text])).head? = some (.choice false)) := by
  have hbefore : ∀ t ∈ before, PlainHead t := fun t ht => hplain t (List.mem_append_left _ ht)
  have htext : PlainHead text := hplain text (by simp)
  obtain ⟨hc, hplaced⟩ := placed_of_takes hc₀ hplaced₀ hbefore htakes
  rw [← nesting] at hplaced
  refine ⟨fun body word hhead hword hclause => ?_, fun body hhead hcall => ⟨?_, ?_⟩, ?_⟩
  · exact rejects_command_iff hc hplaced htext hhead hword hclause
  · rintro rfl h
    have hperm : c.Permits := by
      rw [hplaced.permits_iff, hhead]
      simp
    obtain ⟨_, hword, _⟩ := closing_of_rejects hc hplaced htext hperm h
    obtain ⟨_, code, params, hsymbol⟩ := hcall
    rw [(hc.commands _ _).2 hword] at hsymbol
    cases hsymbol
  · rintro rfl
    exact hcall.rejects hc htext (by rw [hplaced.permits_iff, not_not, hhead])
  · intro hnot h
    have hperm : c.Permits := hplaced.permits_iff.2 (hnot false)
    obtain ⟨word, hword, hclosing, hparen, hhead⟩ := closing_of_rejects hc hplaced htext hperm h
    have hnesting : nesting (before ++ [text]) = (nesting before).line text := by
      rw [nesting, List.foldl_append]
      rfl
    rw [hnesting, Frames.line, hword]
    rcases hclosing with ⟨rfl, _⟩ | ⟨rfl, _⟩
    · exact ⟨.inl rfl, hparen, hhead⟩
    · exact ⟨.inr rfl, hparen, hhead⟩

/-- Behind a `break` inside of a branch, no body is open, and `if 1` is rejected. -/
theorem if_behind_branch_break :
    Tidy (fresh "main") ∧ Placed [] (fresh "main") ∧
      (∀ t ∈ branchBreak ++ ["endif".toList] ++ ["if 1".toList], PlainHead t) ∧
      (nesting (branchBreak ++ ["endif".toList])).head? = some (.choice false) ∧
      firstWord? headStop "if 1".toList = some .ifThen ∧
      ∃ c, Takes (fresh "main") (branchBreak ++ ["endif".toList]) c ∧
        Rejects (line "if 1".toList) c := by
  have hplain : ∀ t ∈ branchBreak ++ ["endif".toList] ++ ["if 1".toList], PlainHead t := by
    decide +kernel
  have hhead : (nesting (branchBreak ++ ["endif".toList])).head? = some (.choice false) := by
    decide +kernel
  have hword : firstWord? headStop "if 1".toList = some .ifThen := by decide +kernel
  obtain ⟨c, htakes⟩ := exists_takes_endIf
  refine ⟨tidy_fresh _, placed_fresh _, hplain, hhead, hword, c, htakes, ?_⟩
  obtain ⟨hcommand, _, _⟩ := case_legality (tidy_fresh _) (placed_fresh _) htakes hplain
  exact (hcommand false .ifThen hhead hword (by decide)).2 rfl

/-- The structures behind a line, where a `break` closes the body of a case from directly
inside its choice and from nowhere else. -/
def lexicalLine (fs : Frames) (text : List Char) : Frames :=
  match firstWord? headStop text, fs with
  | some .breakOut, .choice _ :: fs => .choice false :: fs
  | some .breakOut, fs => fs
  | some .endChoose, fs => fs.tail
  | some word, fs => fs.step word
  | none, fs => fs

/-- The structures that are open behind lines of text, by `lexicalLine`. -/
def lexicalNesting (texts : List (List Char)) : Frames :=
  texts.foldl lexicalLine []

/-- A `break` closes a body from inside a branch too, and in an inner choice it closes
none; the end of a branch loses the permission before its groups are compiled; and a line
with a function may fail before it comes to the call. -/
theorem legality_not_lexical :
    (∀ t ∈ branchBreak ++ innerBreak ++
      ["endif", "if 1", "endif (_tick)", "_tick )"].map String.toList, PlainHead t) ∧
    (∃ c, Takes (fresh "main") (branchBreak ++ ["endif".toList]) c ∧
      (lexicalNesting (branchBreak ++ ["endif".toList])).head? = some (.choice true) ∧
      Rejects (line "if 1".toList) c) ∧
    (∃ c, Takes (fresh "main") innerBreak c ∧
      (lexicalNesting innerBreak).head? = some (.choice false) ∧
      ¬ Rejects (line "if 1".toList) c) ∧
    (∃ c, Takes (fresh "main") branchBreak c ∧
      (lexicalNesting branchBreak).head? = some .branch ∧
      Rejects (line "endif (_tick)".toList) c) ∧
    ∃ c, Takes (fresh "main") choiceOpened c ∧
      (lexicalNesting choiceOpened).head? = some (.choice false) ∧
      StartsCall "_tick )".toList c ∧ ¬ Rejects (line "_tick )".toList) c := by
  have hplain : PlainHead "if 1".toList := by decide +kernel
  have hword : firstWord? headStop "if 1".toList = some .ifThen := by decide +kernel
  refine ⟨by decide +kernel, ?_, ?_, ?_, ?_⟩
  · obtain ⟨c, htakes⟩ := exists_takes_endIf
    obtain ⟨hc, hplaced⟩ := placed_of_fresh (by decide +kernel) htakes
    refine ⟨c, htakes, by decide +kernel, ?_⟩
    exact (rejects_command_iff hc hplaced hplain (by decide +kernel) hword (by decide)).2 rfl
  · obtain ⟨c, htakes⟩ := exists_takes_innerBreak
    obtain ⟨hc, hplaced⟩ := placed_of_fresh (by decide +kernel) htakes
    refine ⟨c, htakes, by decide +kernel, fun h => ?_⟩
    have hbody : (true : Bool) = false :=
      (rejects_command_iff hc hplaced hplain (by decide +kernel) hword (by decide)).1 h
    cases hbody
  · obtain ⟨c, htakes, hrejects⟩ := exists_rejects_endIf
    exact ⟨c, htakes, by decide +kernel, hrejects⟩
  · obtain ⟨symbols, htakes, ⟨husual, _⟩, htick, _⟩ := exists_chosen
    have hcall : StartsCall "_tick )".toList (chosen symbols) :=
      ⟨by decide +kernel, 7, [.stop], htick⟩
    refine ⟨_, htakes, by decide +kernel, hcall, fun h => ?_⟩
    rcases rejects_line.1 h with h | ⟨ss, d, hd, _⟩
    · rw [Rejects, hcall.opening_eq] at h
      exact FitsWhere.not_rejects (fitsAlways_ofExcept (Source.fits_statements _ _)) trivial h
    · rw [hcall.opening_eq] at hd
      obtain ⟨hss, _⟩ := ofExcept_eq_ok_iff.1 hd
      cases hss

end Compile

end ScriptMachine
