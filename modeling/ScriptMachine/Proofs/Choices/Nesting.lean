/-
  ScriptMachine.Proofs.Choices.Nesting

  The open structures of a script, read off the first words of its lines: branches, loops
  and choices, and for each choice whether the body of a case is open in it (`nesting`).
  The compiler keeps one mark for all choices and a count of them.  As long as lines are
  accepted, the mark stands for the innermost choice (`Compile.placed_of_takes`).
-/

import ScriptMachine.Proofs.Choices.Heads

namespace ScriptMachine

/-! ## Open structures -/

/-- An open structure; in a choice, the body of a case is open or not. -/
inductive Frame where
  | branch
  | loop
  | choice (body : Bool)
  deriving DecidableEq

/-- The word that opened a structure. -/
def Frame.word : Frame → Word
  | branch => .ifThen
  | loop => .whileDo
  | choice _ => .choose

theorem Frame.eq_choice {f : Frame} (h : f.word = .choose) : ∃ b, f = .choice b := by
  cases f with
  | choice b => exact ⟨b, rfl⟩
  | branch | loop => cases h

/-- The open structures, innermost first. -/
abbrev Frames := List Frame

namespace Frames

/-- Opens or closes the body of a case in the innermost choice. -/
def setBody (body : Bool) : Frames → Frames
  | [] => []
  | .choice _ :: fs => .choice body :: fs
  | f :: fs => f :: setBody body fs

/-- Whether the body of a case is open in the innermost choice. -/
def body? : Frames → Option Bool
  | [] => none
  | .choice b :: _ => some b
  | _ :: fs => body? fs

/-- Number of choices. -/
def choices : Frames → Nat
  | [] => 0
  | .choice _ :: fs => choices fs + 1
  | _ :: fs => choices fs

/-- The structures behind the bookkeeping of a word, which comes in front of its line. -/
def turn (word : Word) (fs : Frames) : Frames :=
  match word with
  | .ifThen => .branch :: fs
  | .whileDo => .loop :: fs
  | .endIf | .endWhile | .endChoose => fs.tail
  | _ => fs

/-- The structures behind the line of a word.  A `break` closes the body of a case from
inside branches and loops too, but only in a choice that lies in no other; the end of a
choice opens the body of a case in the choice around it. -/
def step (word : Word) (fs : Frames) : Frames :=
  match word with
  | .choose => .choice false :: fs
  | .caseOf | .default => setBody true fs
  | .breakOut => if choices fs = 1 then setBody false fs else fs
  | .endChoose => setBody true fs.tail
  | word => turn word fs

/-- The structures behind a line. -/
def line (fs : Frames) (text : List Char) : Frames :=
  match firstWord? Compile.headStop text with
  | some word => step word fs
  | none => fs

@[simp] theorem map_word_setBody (body : Bool) (fs : Frames) :
    (setBody body fs).map Frame.word = fs.map Frame.word := by
  fun_induction setBody body fs with
  | case1 | case2 => rfl
  | case3 f fs _ ih => rw [List.map_cons, List.map_cons, ih]

@[simp] theorem choices_setBody (body : Bool) (fs : Frames) :
    (setBody body fs).choices = fs.choices := by
  fun_induction setBody body fs with
  | case1 | case2 => rfl
  | case3 f fs _ ih => cases f <;> simp_all [choices]

theorem body?_setBody {body b : Bool} {fs : Frames} (h : (setBody body fs).body? = some b) :
    b = body := by
  fun_induction setBody body fs with
  | case1 => cases h
  | case2 => exact (Option.some.inj h).symm
  | case3 f fs hchoice ih =>
    cases f with
    | choice b => exact absurd rfl (hchoice b)
    | branch | loop => exact ih h

theorem choices_pos_of_body? {b : Bool} {fs : Frames} (h : fs.body? = some b) : 0 < fs.choices := by
  fun_induction body? fs with
  | case1 => cases h
  | case2 => exact Nat.succ_pos _
  | case3 f fs hchoice ih =>
    cases f with
    | choice b => exact absurd rfl (hchoice b)
    | branch | loop => exact ih h

end Frames

/-- The structures that are open behind lines of text. -/
def nesting (texts : List (List Char)) : Frames :=
  texts.foldl Frames.line []

-- comparing two states should never run the writing of the program
attribute [local irreducible] Program.write Program.writeAll

namespace Compile

variable {c c' d : Compiler} {fs : Frames} {word : Word}

/-- The open structures of a compiler are given by frames: their words, the number of
choices, and the mark for the innermost choice. -/
structure Placed (fs : Frames) (c : Compiler) : Prop where
  structures : c.structures.items.toList = (fs.map Frame.word).reverse
  depth : c.switchDepth = fs.choices
  body : ∀ b, fs.body? = some b → c.inCase = b

theorem placed_fresh (file : String) : Placed [] (fresh file) :=
  ⟨rfl, rfl, nofun⟩

theorem Placed.congr (h : Placed fs c) (k : SamePlace c d) : Placed fs d where
  structures := by rw [k.structures, h.structures]
  depth := by rw [k.switchDepth, h.depth]
  body b hb := by rw [k.inCase, h.body b hb]

theorem Placed.top (h : Placed fs c) : c.structures.top? = fs.head?.map Frame.word := by
  rw [Stack.top?, ← Array.getLast?_toList, h.structures, List.getLast?_reverse, List.head?_map]

/-- Calls are permitted but directly in a choice without an open body. -/
theorem Placed.permits_iff (h : Placed fs c) : c.Permits ↔ fs.head? ≠ some (.choice false) := by
  rw [Compiler.Permits, h.top]
  cases fs with
  | nil => simp
  | cons f fs =>
    cases f with
    | branch | loop => simp [Frame.word]
    | choice b =>
      rw [h.body b rfl]
      simp [Frame.word]

/-! ## Bookkeeping -/

theorem Placed.push (h : Placed fs c) {f : Frame} (hf : ∀ b, f ≠ .choice b)
    (hstructures : d.structures.items = c.structures.items.push f.word)
    (hdepth : d.switchDepth = c.switchDepth) (hcase : d.inCase = c.inCase) :
    Placed (f :: fs) d where
  structures := by rw [hstructures, Array.toList_push, h.structures]; simp
  depth := by
    rw [hdepth, h.depth]
    cases f with
    | choice b => exact absurd rfl (hf b)
    | branch | loop => rfl
  body b hb := by
    rw [hcase]
    cases f with
    | choice b => exact absurd rfl (hf b)
    | branch | loop => exact h.body b hb

/-- The words that remain when a structure is left. -/
theorem Placed.pop (h : Placed fs c) : c.structureLeft.structures.items.toList =
    (fs.tail.map Frame.word).reverse := by
  show c.structures.items.pop.toList = _
  rw [Array.toList_pop, h.structures, List.dropLast_reverse, List.map_tail]

/-- A branch or a loop is left. -/
theorem Placed.left (h : Placed fs c) {f : Frame} (hf : ∀ b, f ≠ .choice b)
    (hhead : c.structures.top? = some f.word)
    (hstructures : d.structures = c.structureLeft.structures)
    (hdepth : d.switchDepth = c.switchDepth) (hcase : d.inCase = c.inCase) :
    fs.head? = some f ∧ Placed fs.tail d := by
  rw [h.top] at hhead
  cases fs with
  | nil => cases hhead
  | cons g fs =>
    obtain rfl : g = f := by
      cases g <;> cases f <;> simp_all [Frame.word]
    refine ⟨rfl, by rw [hstructures, h.pop], ?_, fun b hb => ?_⟩
    · rw [hdepth, h.depth]
      cases g with
      | choice b => exact absurd rfl (hf b)
      | branch | loop => rfl
    · rw [hcase]
      cases g with
      | choice b => exact absurd rfl (hf b)
      | branch | loop => exact h.body b hb

/-- The words whose bookkeeping opens or closes a structure. -/
def turning : List Word :=
  [.ifThen, .whileDo, .endIf, .endWhile, .endChoose]

theorem samePlace_control (hword : word ∉ turning) : Keeps SamePlace (control word) := by
  cases word with
  | ifThen | whileDo | endIf | endWhile | endChoose => exact absurd (by decide) hword
  | elseIf | otherwise =>
    exact (keeps_ask _).bind fun _ => (keeps_ask _).bind fun l => (keeps_goto l).bind fun _ =>
      keeps_onBlocks _ _
  | choose => exact (keeps_onBlocks _ _).bind fun _ => keeps_pure ()
  | caseOf | default => exact (keeps_ask _).bind fun _ => keeps_onBlocks _ _
  | breakOut => exact (keeps_ask _).bind fun l => keeps_goto l
  | _ => exact keeps_pure ()

theorem turn_of_not_mem (hword : word ∉ turning) (fs : Frames) : fs.turn word = fs := by
  cases word <;> first | rfl | exact absurd (by decide) hword

/-- The bookkeeping of a word, but for the end of a choice, turns to the structures that
its line stands in; a branch or loop that it leaves was the innermost structure. -/
theorem placed_control (h : Placed fs c) (hword : word ≠ .endChoose)
    (hd : control word c = .ok () d) :
    Placed (fs.turn word) d ∧ (word = .endIf → fs.head? = some .branch) ∧
      (word = .endWhile → fs.head? = some .loop) := by
  by_cases hturn : word ∈ turning
  · cases word with
    | ifThen =>
      obtain ⟨_, _, rfl⟩ := (openBlock_eq_ok_iff (by decide)).1 hd
      refine ⟨?_, nofun, nofun⟩
      exact @Placed.push _ _ _ h .branch nofun rfl rfl rfl
    | whileDo =>
      obtain ⟨_, _, rfl⟩ := (openBlock_eq_ok_iff (by decide)).1 hd
      refine ⟨?_, nofun, nofun⟩
      exact @Placed.push _ _ _ h .loop nofun rfl rfl rfl
    | endIf =>
      obtain ⟨htop, o, rest, _, _, rfl⟩ := closeIf_eq_ok_iff.1 hd
      obtain ⟨hhead, hplaced⟩ := @Placed.left _ (c.blockLeft .endIf o rest) _ h .branch nofun htop
        rfl rfl rfl
      exact ⟨hplaced, fun _ => hhead, nofun⟩
    | endWhile =>
      obtain ⟨htop, o, rest, _, _, rfl⟩ := closeWhile_eq_ok_iff.1 hd
      obtain ⟨hhead, hplaced⟩ := @Placed.left _ ((c.withJump _ _).blockLeft .endWhile o rest) _ h
        .loop nofun htop rfl rfl rfl
      exact ⟨hplaced, nofun, fun _ => hhead⟩
    | endChoose => exact absurd rfl hword
    | _ => exact absurd hturn (by decide)
  · rw [turn_of_not_mem hturn]
    refine ⟨h.congr (samePlace_control hturn _ _ _ hd), ?_, ?_⟩
    · rintro rfl
      exact absurd (by decide) hturn
    · rintro rfl
      exact absurd (by decide) hturn

/-! ## Commands -/

theorem Placed.setBody (h : Placed fs c) (body : Bool) (hstructures : d.structures = c.structures)
    (hdepth : d.switchDepth = c.switchDepth) (hcase : d.inCase = body) :
    Placed (fs.setBody body) d where
  structures := by rw [hstructures, h.structures, Frames.map_word_setBody]
  depth := by rw [hdepth, h.depth, Frames.choices_setBody]
  body b hb := by rw [hcase, Frames.body?_setBody hb]

theorem step_eq_turn (hword : word ∉ casing) (fs : Frames) : fs.step word = fs.turn word := by
  cases word <;> first | rfl | exact absurd (by decide) hword

/-- Behind the bookkeeping of a word, its command leaves the structures of its line. -/
theorem placed_command {s : Scanner} (h : Placed (fs.turn word) c) (hword : word ≠ .endChoose)
    (hd : command word s c = .ok () d) : Placed (fs.step word) d := by
  by_cases hcasing : word ∈ casing
  · cases word with
    | choose =>
      obtain ⟨_, _, o, _, _, _, _, _, _, _, rfl⟩ := of_enterChoose_eq_ok hd
      refine ⟨?_, ?_, fun b hb => Option.some.inj hb⟩
      · show (c.structures.items.push .choose).toList = _
        rw [Array.toList_push, h.structures]
        simp [Frames.step, Frames.turn, Frame.word]
      · exact congrArg (· + 1) h.depth
    | caseOf =>
      obtain ⟨_, o, _, _, _, _, rfl⟩ := enterCase_eq_ok_iff.1 hd
      exact h.setBody true rfl rfl rfl
    | default =>
      obtain rfl := modify_eq_ok_iff.1 hd
      exact h.setBody true rfl rfl rfl
    | breakOut =>
      obtain rfl := modify_eq_ok_iff.1 hd
      have hdepth : c.switchDepth = fs.choices := h.depth
      show Placed (if fs.choices = 1 then fs.setBody false else fs) _
      by_cases hone : fs.choices = 1
      · rw [if_pos hone]
        exact h.setBody false rfl rfl (if_pos (hdepth.trans hone))
      · rw [if_neg hone]
        exact h.congr ⟨rfl, rfl, if_neg (by rwa [hdepth])⟩
    | endChoose => exact absurd rfl hword
    | _ => exact absurd hcasing (by decide)
  · rw [step_eq_turn hcasing]
    exact h.congr (samePlace_command hcasing s _ _ _ hd)

/-- The end of a choice, with groups between its bookkeeping and its command. -/
theorem placed_endChoose {s : Scanner} (h : Placed fs c) {e : Compiler}
    (hd : control .endChoose c = .ok () d) (hplace : SamePlace d e)
    (hc' : command .endChoose s e = .ok () c') : Placed (fs.step .endChoose) c' := by
  obtain ⟨htop, o, rest, l, _, _, _, rfl⟩ := closeChoose_eq_ok_iff.1 hd
  obtain ⟨_, rfl⟩ := leaveChoose_eq_ok_iff.1 hc'
  rw [h.top] at htop
  cases fs with
  | nil => cases htop
  | cons f fs =>
    obtain ⟨b, rfl⟩ := Frame.eq_choice (Option.some.inj htop)
    have hdepth : e.switchDepth = Frames.choices fs + 1 := hplace.switchDepth.trans h.depth
    refine ⟨?_, ?_, fun b hb => ?_⟩
    · show e.structures.items.toList = ((Frames.setBody true fs).map Frame.word).reverse
      rw [hplace.structures, Frames.map_word_setBody]
      exact h.pop
    · show e.switchDepth - 1 = (Frames.setBody true fs).choices
      rw [hdepth, Frames.choices_setBody, Nat.add_sub_cancel]
    · -- the mark is set exactly where a choice is left to stand for
      replace hb : (Frames.setBody true fs).body? = some b := hb
      have hpos := Frames.choices_pos_of_body? hb
      rw [Frames.choices_setBody] at hpos
      show decide (1 < e.switchDepth) = b
      rw [Frames.body?_setBody hb, hdepth, decide_eq_true_iff]
      omega

/-! ## Lines -/

/-- The first word of a line is whole: no `%` cuts it short in its statement, and no word
gets a second name. -/
def PlainHead (text : List Char) : Prop :=
  '%' ∉ headOf headStop text ∧ firstWord? headStop text ≠ some .defineCommand

instance (text : List Char) : Decidable (PlainHead text) :=
  inferInstanceAs (Decidable (_ ∧ _))

variable {text : List Char} {ss : List (List Char)}

/-- What is done in front of the statements of a line: nothing for a blank line, else the
bookkeeping of its word. -/
theorem Tidy.of_opening_eq_ok (hc : Tidy c) (h : opening text c = .ok ss d) :
    (ss = [] ∧ d = c ∧ firstWord? headStop text = none) ∨
      headOf headStop text ≠ [] ∧ Source.statements c.config.stem text = .ok ss ∧
        (∀ word, firstWord? headStop text = some word →
          c.checkSwitch (some word) = .ok () ∧ control word c = .ok () d) ∧
        (firstWord? headStop text = none → d = c) := by
  have htaken : ∀ e : Compiler, (do ofExcept (Source.statements (← get).config.stem text)) e =
      .ok ss d → Source.statements e.config.stem text = .ok ss ∧ d = e := by
    intro e he
    obtain ⟨_, _, hget, he⟩ := bind_eq_ok_iff.1 he
    obtain ⟨rfl, rfl⟩ := get_eq_ok_iff.1 hget
    exact ofExcept_eq_ok_iff.1 he
  obtain ⟨r, _, hhead, h₁⟩ := bind_eq_ok_iff.1 h
  obtain rfl := head?_eq_ok hhead
  rcases headOf_of_head? hhead with ⟨rfl, hempty⟩ | ⟨hne, s, rfl⟩
  · obtain ⟨rfl, rfl⟩ := pure_eq_ok_iff.1 h₁
    refine .inl ⟨rfl, rfl, ?_⟩
    rw [firstWord?, hempty]
    decide +kernel
  · refine .inr ⟨hne, ?_⟩
    obtain ⟨_, _, hget, h₂⟩ := bind_eq_ok_iff.1 h₁
    obtain ⟨rfl, rfl⟩ := get_eq_ok_iff.1 hget
    dsimp only at h₂
    generalize hsymbol : Symbols.get? _ _ = symbol at h₂
    have hcommand : ∀ word, firstWord? headStop text = some word → symbol = some (.command word) :=
      fun word hword => hsymbol.symm.trans ((hc.commands _ word).2 hword)
    cases symbol with
    | none =>
      obtain ⟨_, _, hget, h₃⟩ := bind_eq_ok_iff.1 h₂
      obtain ⟨rfl, rfl⟩ := get_eq_ok_iff.1 hget
      split at h₃
      · obtain ⟨hss, rfl⟩ := htaken _ h₃
        exact ⟨hss, fun w hw => absurd (hcommand w hw) (by simp), fun _ => rfl⟩
      · exact absurd h₃ throw_ne_ok
    | some symbol =>
      cases symbol with
      | command word =>
        obtain ⟨_, _, hask, h₃⟩ := bind_eq_ok_iff.1 h₂
        obtain ⟨hcheck, rfl⟩ := ask_eq_ok_iff.1 hask
        obtain ⟨_, e, hcontrol, h₄⟩ := bind_eq_ok_iff.1 h₃
        obtain ⟨hss, rfl⟩ := htaken _ h₄
        rw [(sameNames_control word _ _ _ hcontrol).config] at hss
        have hword : firstWord? headStop text = some word := (hc.commands _ word).1 hsymbol
        refine ⟨hss, fun w hw => ?_, fun hnone => ?_⟩
        · cases hcommand w hw
          exact ⟨hcheck, hcontrol⟩
        · rw [hword] at hnone
          cases hnone
      | function | var | constant =>
        obtain ⟨hss, rfl⟩ := htaken _ h₂
        exact ⟨hss, fun w hw => absurd (hcommand w hw) (by simp), fun _ => rfl⟩

/-- A line with a word, taken apart behind the bookkeeping. -/
theorem Tidy.opening_eq_ok (hc : Tidy c) (hword : firstWord? headStop text = some word)
    (hcheck : c.checkSwitch (some word) = .ok ()) (hcontrol : control word c = .ok () d)
    (hss : Source.statements c.config.stem text = .ok ss) : opening text c = .ok ss d := by
  obtain ⟨s, hs⟩ := head?_eq (headOf_ne_nil hword)
  have hconfig := (sameNames_control word _ _ _ hcontrol).config
  unfold opening
  rw [hs, pure_bind]
  dsimp only
  rw [get_bind, (hc.commands _ _).2 hword]
  exact bind_eq_ok_iff.2 ⟨(), c, ask_eq_ok_iff.2 ⟨hcheck, rfl⟩, bind_eq_ok_iff.2 ⟨(), d, hcontrol,
    ofExcept_eq_ok_iff.2 ⟨by rw [hconfig, hss], rfl⟩⟩⟩

/-- The statements of a line: its groups, and one with the first word of the line. -/
theorem PlainHead.parts {stem : String} (htext : PlainHead text) (hne : headOf headStop text ≠ [])
    (h : Source.statements stem text = .ok ss) :
    ∃ groups last, ss = groups ++ [last] ∧ (∀ s ∈ groups, Source.IsGroup stem s) ∧
      firstWord? ('%' :: headStop) last = firstWord? headStop text := by
  obtain ⟨groups, last, hss, hgroups, hlast⟩ := Source.statements_heads hne htext.1 h
  exact ⟨groups, last, hss, hgroups, by rw [firstWord?, hlast, firstWord?]⟩

/-- An accepted line takes its step. -/
theorem placed_line (hc : Tidy c) (h : Placed fs c) (htext : PlainHead text)
    (hline : line text c = .ok () c') : Tidy c' ∧ Placed (fs.line text) c' := by
  obtain ⟨ss, d, hopening, hss⟩ := line_eq_ok hline
  rcases hc.of_opening_eq_ok hopening with ⟨rfl, rfl, hnone⟩ | ⟨hne, hstatements, hword, hnone⟩
  · obtain ⟨_, rfl⟩ := pure_eq_ok_iff.1 hss
    rw [Frames.line, hnone]
    exact ⟨hc, h⟩
  · obtain ⟨groups, last, rfl, hgroups, hlast⟩ := htext.parts hne hstatements
    obtain ⟨e, he, hstatement⟩ := Grouped.forM_append_eq_ok_iff.1 hss
    rw [Grouped.forM_singleton_eq_ok_iff] at hstatement
    have hnames : SameNames c d := keeps_opening sameNames_control text _ _ _ hopening
    have hd : Tidy d := (SameNames.redefines hnames : Redefines False (fun _ => False) c d).tidy hc
    rw [← hnames.config] at hgroups
    obtain ⟨hetidy, haside⟩ := aside_groups hd hgroups he
    have hredefines : Redefines False (fun _ => True) e c' :=
      hetidy.redefines (by rw [hlast]; exact htext.2) (fun _ _ _ _ _ _ _ => trivial)
        (fun _ _ => trivial) hstatement
    refine ⟨hredefines.tidy hetidy, ?_⟩
    cases hfirst : firstWord? headStop text with
    | none =>
      obtain rfl := hnone hfirst
      rw [Frames.line, hfirst]
      exact (h.congr haside.place).congr (hetidy.samePlace (hlast.trans hfirst) hstatement)
    | some word =>
      obtain ⟨_, hcontrol⟩ := hword word hfirst
      obtain ⟨s, hs⟩ := hetidy.statement_eq (hlast.trans hfirst)
      rw [hs] at hstatement
      rw [Frames.line, hfirst]
      by_cases hend : word = .endChoose
      · subst hend
        exact placed_endChoose h hcontrol haside.place hstatement
      · obtain ⟨hplaced, _⟩ := placed_control h hend hcontrol
        exact placed_command (hplaced.congr haside.place) hend hstatement

/-- Accepted lines lead to the structures that are read off them. -/
theorem placed_of_takes {texts : List (List Char)} (hc : Tidy c) (h : Placed fs c)
    (htexts : ∀ text ∈ texts, PlainHead text) (htakes : Takes c texts c') :
    Tidy c' ∧ Placed (texts.foldl Frames.line fs) c' := by
  induction htakes generalizing fs with
  | nil c => exact ⟨hc, h⟩
  | cons hline _ ih =>
    obtain ⟨htext, hmore⟩ := List.forall_mem_cons.1 htexts
    obtain ⟨hd, hplaced⟩ := placed_line hc h htext hline
    exact ih hd hplaced hmore

theorem placed_of_fresh {file : String} {texts : List (List Char)}
    (htexts : ∀ text ∈ texts, PlainHead text) (htakes : Takes (fresh file) texts c) :
    Tidy c ∧ Placed (nesting texts) c :=
  placed_of_takes (tidy_fresh file) (placed_fresh file) htexts htakes

end Compile

end ScriptMachine
