/-
  ScriptMachine.Proofs.Structured.Statements

  Compiling one line of a structured script.  A line that starts with a command word
  is the bookkeeping of the word and then its command (`line_word_eq_ok_iff`); a line
  that starts with a name is an assignment (`line_name_eq_ok_iff`).
-/

import ScriptMachine.Proofs.Lines
import ScriptMachine.Proofs.Structured.Drafts

namespace ScriptMachine

namespace Structured

open Compile

-- comparing two states should never run the writing of the program
attribute [local irreducible] Program.write

variable {c c' : Compiler}

/-! ## Names known while compiling -/

/-- What the compiler of a structured script knows: every command word by its own
spelling, no name but as a variable, and the default settings. -/
structure Usual (c : Compiler) : Prop where
  config : c.config = {}
  words : ∀ w : Word, c.symbols.get? w.spelling = some (.command w)
  names : ∀ x : Name, ∀ s, c.symbols.get? x.text = some s → s = .var

theorem Usual.plain (h : Usual c) : Plain c.context :=
  ⟨h.names, congrArg Config.maxString h.config⟩

theorem Usual.of_sameNames (h : Usual c) (k : SameNames c c') : Usual c' where
  config := k.config.trans h.config
  words := by rw [k.symbols]; exact h.words
  names := by rw [k.symbols]; exact h.names

theorem Usual.blockOpened (h : Usual c) (w : Word) (structures : Stack Word) :
    Usual { c.blockOpened w with structures } :=
  h.of_sameNames ⟨rfl, rfl⟩

theorem Usual.blockLinked (h : Usual c) (w : Word) (o : OpenBlock) (rest : List OpenBlock) :
    Usual (c.blockLinked w o rest) :=
  h.of_sameNames ⟨rfl, rfl⟩

theorem Usual.withJump (h : Usual c) (items : List Item) (l : Label) : Usual (c.withJump items l) :=
  h.of_sameNames ⟨rfl, rfl⟩

theorem Usual.withCase (h : Usual c) (inside : Bool) : Usual (c.withCase inside) :=
  h.of_sameNames ⟨rfl, rfl⟩

theorem Name.text_ne_spelling (x : Name) (w : Word) : x.text ≠ w.spelling := by
  intro heq
  have hres := x.unreserved
  rw [show String.ofList (x.first :: x.rest) = w.spelling from heq, Symbols.isReserved,
    Word.ofSpelling?_spelling] at hres
  cases hres

/-- A new variable. -/
theorem Usual.insert (h : Usual c) {name : String} (hname : ∀ w : Word, name ≠ w.spelling) :
    Usual { c with symbols := c.symbols.insert name .var } where
  config := h.config
  words := by
    intro w
    rw [Symbols.get?_insert, if_neg (hname w)]
    exact h.words w
  names := by
    intro x s hs
    rw [Symbols.get?_insert] at hs
    split at hs
    · exact (Option.some.inj hs).symm
    · exact h.names x s hs

theorem Name.text_ne_underscored (x : Name) (rest : List Char) :
    String.ofList ('_' :: rest) ≠ x.text := by
  intro heq
  have hchars : '_' :: rest = x.first :: x.rest := by
    rw [← String.toList_ofList (l := '_' :: rest), heq, Name.text, String.toList_ofList, Name.chars]
  have hletter := x.letter
  rw [← (List.cons.inj hchars).1] at hletter
  exact absurd hletter (by decide)

theorem underscored_ne_spelling {rest : List Char} (hrest : rest.head? ≠ some '_') (w : Word) :
    String.ofList ('_' :: rest) ≠ w.spelling := by
  -- a word that starts with an underscore starts with two
  have htwo (w : Word) : w.spelling.toList.head? = some '_' →
      w.spelling.toList.tail.head? = some '_' := by
    cases w <;> decide
  intro heq
  have hchars : w.spelling.toList = '_' :: rest := by rw [← heq, String.toList_ofList]
  have hsecond := htwo w
  rw [hchars] at hsecond
  exact hrest (hsecond rfl)

/-- A symbol for a name that starts with a single underscore, as no word and no name of a
script does. -/
theorem Usual.insert_underscored (h : Usual c) (rest : List Char) {symbol : Symbol}
    (hrest : rest.head? ≠ some '_') (hconfig : c'.config = c.config)
    (hsymbols : c'.symbols = c.symbols.insert (String.ofList ('_' :: rest)) symbol) :
    Usual c' where
  config := hconfig.trans h.config
  words w := by
    rw [hsymbols, Symbols.get?_insert, if_neg (underscored_ne_spelling hrest w)]
    exact h.words w
  names x s hs := by
    rw [hsymbols, Symbols.get?_insert, if_neg (x.text_ne_underscored rest)] at hs
    exact h.names x s hs

/-! ## The first word of a line -/

theorem head?_append {stop w rest : List Char} (hne : w ≠ [])
    (hw : ∀ c ∈ w, stop.contains c = false)
    (hhead : ∀ c ∈ (w ++ rest).head?, blanks.contains c = false)
    (hrest : ∀ c ∈ rest.head?, stop.contains c = true) :
    head? stop (w ++ rest) = pure (some (String.ofList w, ⟨Text.utf8Length w, rest⟩)) := by
  have hskip : (Scanner.ofLine (w ++ rest)).skip blanks = ⟨0, w ++ rest⟩ :=
    Scanner.skip_of_head hhead
  have hword : Scanner.word? stop ⟨0, w ++ rest⟩ = some (w, ⟨0 + Text.utf8Length w, rest⟩) :=
    Scanner.word?_append hne hw hrest
  rw [Nat.zero_add] at hword
  unfold head?
  rw [hskip]
  dsimp only
  rw [hword]
  cases hcons : w with
  | nil => exact absurd hcons hne
  | cons d ds => rfl

theorem head?_word {stop w rest : List Char} (hw : IsWord w) (hrest : Follows rest)
    (hstop : stop.all (fun d => !isOrdinary d) = true) (hblank : stop.contains ' ' = true) :
    head? stop (w ++ rest) = pure (some (String.ofList w, ⟨Text.utf8Length w, rest⟩)) :=
  head?_append hw.1 (fun c hc => contains_of_isOrdinary (hw.2 c hc) hstop)
    (hw.head_contains (by decide)) (hrest.contains hblank)

/-- A flat line is one statement. -/
theorem statements_flat {text : List Char} (hflat : Flat text) :
    (do
      let statements ← Compile.ofExcept (Source.statements (← get).config.stem text)
      let whole := Text.trim text
      statements.forM fun s =>
        if Text.trim s = whole then statement s else inFragment s (statement s) :
        Compile Unit) c = statement text c := by
  rw [get_bind]
  show (Compile.ofExcept _ >>= _) c = _
  rw [hflat.statements]
  show ((if _ then _ else _ : Compile Unit) >>= fun _ => pure ()) c = _
  rw [if_pos rfl, bind_pure_unit]

/-! ## Command words -/

theorem statement_word {w : Word} {rest : List Char} (hrest : Follows rest)
    (hw : c.symbols.get? w.spelling = some (.command w)) :
    statement (w.spelling.toList ++ rest) c =
      command w ⟨Text.utf8Length w.spelling.toList, rest⟩ c := by
  have hhead : head? ('%' :: headStop) (w.spelling.toList ++ rest) = _ :=
    head?_word (isWord_spelling w) hrest (by decide) (by decide)
  rw [String.ofList_toList] at hhead
  exact statement_of_symbol (congrFun hhead c) hw

/-- A line with a command word: the bookkeeping of the word, then its command. -/
theorem line_word_eq_ok_iff (hc : Usual c) {w : Word} {rest : List Char} (hrest : Follows rest)
    (hflat : Flat (w.spelling.toList ++ rest)) :
    line (w.spelling.toList ++ rest) c = .ok () c' ↔ c.checkSwitch (some w) = .ok () ∧
      ∃ d, control w c = .ok () d ∧
        command w ⟨Text.utf8Length w.spelling.toList, rest⟩ d = .ok () c' := by
  have hline : line (w.spelling.toList ++ rest) c = (do
      ask (·.checkSwitch (some w))
      control w
      let statements ← Compile.ofExcept
        (Source.statements (← get).config.stem (w.spelling.toList ++ rest))
      let whole := Text.trim (w.spelling.toList ++ rest)
      statements.forM fun s =>
        if Text.trim s = whole then statement s else inFragment s (statement s) :
        Compile Unit) c := by
    unfold line
    rw [head?_word (isWord_spelling w) hrest (by decide) (by decide), pure_bind]
    dsimp only
    rw [String.ofList_toList, get_bind, hc.words w]
  rw [hline]
  simp only [bind_eq_ok_iff (x := ask _), bind_eq_ok_iff (x := control w), ask_eq_ok_iff]
  constructor
  · rintro ⟨_, _, ⟨hcheck, rfl⟩, _, d, hcontrol, hstatements⟩
    have hd := hc.of_sameNames (sameNames_control w _ _ _ hcontrol)
    rw [statements_flat hflat, statement_word hrest (hd.words w)] at hstatements
    exact ⟨hcheck, d, hcontrol, hstatements⟩
  · rintro ⟨hcheck, d, hcontrol, hcommand⟩
    have hd := hc.of_sameNames (sameNames_control w _ _ _ hcontrol)
    refine ⟨(), _, ⟨hcheck, rfl⟩, (), d, hcontrol, ?_⟩
    rw [statements_flat hflat, statement_word hrest (hd.words w)]
    exact hcommand

/-! ## Names -/

/-- A name of a script never becomes a variable by itself. -/
theorem Name.not_isAutoVariable (x : Name) : isAutoVariable {} x.text = false := by
  have hletter : ∀ rest, x.text.toList = '$' :: rest → False := by
    intro rest hrest
    rw [Name.text, String.toList_ofList] at hrest
    obtain ⟨hfirst, _⟩ := List.cons.inj hrest
    have hl := x.letter
    rw [hfirst] at hl
    revert hl
    decide
  have hstem : ("$" : String).toList = ['$'] := by decide
  simp only [isAutoVariable, hstem, Bool.or_self]
  cases hx : x.text.toList with
  | nil => rfl
  | cons d ds =>
    rw [Bool.eq_false_iff]
    intro hprefix
    simp only [List.isPrefixOf, Bool.and_true, beq_iff_eq] at hprefix
    rw [← hprefix] at hx
    exact hletter ds hx

/-- A line with a name: an assignment to a known variable. -/
theorem line_name_eq_ok_iff (hc : Usual c) {x : Name} {rest : List Char} (hrest : Follows rest)
    (hflat : Flat (x.chars ++ rest)) :
    line (x.chars ++ rest) c = .ok () c' ↔ c.symbols.get? x.text = some .var ∧
      emit (·.assignment x.text ⟨Text.utf8Length x.chars, rest⟩) c = .ok () c' := by
  unfold line
  rw [head?_word x.isWord hrest (by decide) (by decide), pure_bind]
  dsimp only
  rw [get_bind, show String.ofList x.chars = x.text from rfl]
  cases hs : c.symbols.get? x.text with
  | none =>
    simp only [reduceCtorEq, false_and, iff_false]
    rw [get_bind, hc.config, x.not_isAutoVariable]
    exact throw_ne_ok
  | some s =>
    obtain rfl := hc.names x s hs
    have hstatement : statement (x.chars ++ rest) c =
        emit (·.assignment x.text ⟨Text.utf8Length x.chars, rest⟩) c :=
      statement_of_symbol (congrFun (head?_word x.isWord hrest (by decide) (by decide)) c) hs
    simp only [true_and]
    rw [← hstatement, ← statements_flat hflat]

/-- The state with a new variable. -/
def declared (c : Compiler) (x : Name) : Compiler :=
  { c with
    symbols := c.symbols.insert x.text .var
    program := c.program.comment ("var " ++ x.text) }

theorem Usual.declared (hc : Usual c) (x : Name) : Usual (declared c x) :=
  (hc.insert x.text_ne_spelling).of_sameNames ⟨rfl, rfl⟩

/-- A declaration and what is assigned with it. -/
theorem defineVariable_eq_ok_iff {x : Name} {rest : List Char} (hrest : Follows rest) (o : Nat) :
    ∃ o', defineVariable ⟨o, ' ' :: (x.chars ++ rest)⟩ c = .ok () c' ↔
      emit (·.assignment x.text ⟨o', rest⟩) (declared c x) = .ok () c' := by
  have hskip : Scanner.skip blanks ⟨o, ' ' :: (x.chars ++ rest)⟩ =
      ⟨o + Text.utf8Length [' '], x.chars ++ rest⟩ :=
    Scanner.skip_cons (by decide) (x.isWord.head_contains (by decide))
  have hword : Scanner.word? ('=' :: blanks) ⟨o + Text.utf8Length [' '], x.chars ++ rest⟩ = _ :=
    x.isWord.word? (by decide) (hrest.contains (by decide))
  refine ⟨o + Text.utf8Length [' '] + Text.utf8Length x.chars, ?_⟩
  unfold defineVariable
  rw [hskip, hword]
  have hset : c.symbols.set x.text .var = .ok (c.symbols.insert x.text .var) := by
    refine Symbols.set_eq_ok_iff.2 ⟨?_, x.unreserved, rfl⟩
    intro hempty
    have hnil := congrArg String.toList hempty
    rw [Name.text, String.toList_ofList] at hnil
    cases hnil
  simp only [bind_eq_ok_iff, onSymbols_eq_ok_iff, comment_eq_ok_iff]
  constructor
  · rintro ⟨_, _, hrequired, _, _, ⟨_, hs, rfl⟩, _, _, rfl, h⟩
    obtain ⟨rfl, rfl⟩ := pure_eq_ok_iff.1 hrequired
    obtain rfl := Except.ok.inj (hset.symm.trans hs)
    exact h
  · intro h
    exact ⟨(x.text, _), c, rfl, (), _, ⟨_, hset, rfl⟩, (), _, rfl, h⟩

/-! ## The lines of a script -/

section
variable (hc : Usual c)
include hc

theorem line_alone_eq_ok_iff (w : Word) :
    line (alone w) c = .ok () c' ↔ c.checkSwitch (some w) = .ok () ∧
      ∃ d, control w c = .ok () d ∧
        command w ⟨Text.utf8Length w.spelling.toList, []⟩ d = .ok () c' := by
  have hline := isLine_alone w
  rw [alone, ← List.append_nil w.spelling.toList] at hline ⊢
  rw [line_word_eq_ok_iff hc follows_nil hline.1, List.append_nil]

theorem line_headed_eq_ok_iff (w : Word) {cs : List Char} (hcs : IsLine cs) :
    line (headed w cs) c = .ok () c' ↔ c.checkSwitch (some w) = .ok () ∧
      ∃ d, control w c = .ok () d ∧
        command w ⟨Text.utf8Length w.spelling.toList, ' ' :: cs⟩ d = .ok () c' :=
  line_word_eq_ok_iff hc (follows_blank cs) (isLine_headed w hcs).1

theorem line_assign_eq_ok_iff (x : Name) (change : Change) :
    line (x.chars ++ ' ' :: change.chars) c = .ok () c' ↔ x.Known c.symbols ∧
      change.Known c.symbols ∧
      c' = { c with program := c.program.writeAll (change.instruction x).items } := by
  rw [line_name_eq_ok_iff hc (follows_blank _) (x.isLine_append change.isLine).1, emit_eq_ok_iff]
  simp only [assignment_eq_ok_iff hc.plain]
  constructor
  · rintro ⟨hvar, _, ⟨hfits, hknown, rfl⟩, rfl⟩
    exact ⟨⟨hvar, hfits⟩, hknown, rfl⟩
  · rintro ⟨⟨hvar, hfits⟩, hknown, rfl⟩
    exact ⟨hvar, _, ⟨hfits, hknown, rfl⟩, rfl⟩

theorem line_declare_eq_ok_iff (x : Name) :
    line (headed .var x.chars) c = .ok () c' ↔ c.checkSwitch (some .var) = .ok () ∧
      c' = declared c x := by
  rw [line_headed_eq_ok_iff hc _ x.isWord.isLine]
  obtain ⟨o, hdefine⟩ := @defineVariable_eq_ok_iff c c' x [] follows_nil
    (Text.utf8Length Word.var.spelling.toList)
  rw [List.append_nil] at hdefine
  refine and_congr_right fun _ => ?_
  have hemit : emit (·.assignment x.text ⟨o, []⟩) (declared c x) = .ok () (declared c x) := rfl
  constructor
  · rintro ⟨d, hcontrol, hcommand⟩
    obtain ⟨_, rfl⟩ := pure_eq_ok_iff.1 hcontrol
    exact (EStateM.Result.ok.inj (hemit.symm.trans (hdefine.1 hcommand))).2.symm
  · rintro rfl
    exact ⟨c, rfl, hdefine.2 hemit⟩

theorem line_declareAssign_eq_ok_iff (x : Name) (change : Change) :
    line (headed .var (x.chars ++ ' ' :: change.chars)) c = .ok () c' ↔
      c.checkSwitch (some .var) = .ok () ∧ Item.textFits x.text = true ∧
      change.Known (c.symbols.insert x.text .var) ∧
      c' = { declared c x with
        program := (declared c x).program.writeAll (change.instruction x).items } := by
  rw [line_headed_eq_ok_iff hc _ (x.isLine_append change.isLine)]
  obtain ⟨o, hdefine⟩ := @defineVariable_eq_ok_iff c c' x _ (follows_blank change.chars)
    (Text.utf8Length Word.var.spelling.toList)
  refine and_congr_right fun _ => ?_
  have hemit : emit (·.assignment x.text ⟨o, ' ' :: change.chars⟩) (declared c x) = .ok () c' ↔ _ :=
    emit_eq_ok_iff
  simp only [assignment_eq_ok_iff (hc.declared x).plain] at hemit
  constructor
  · rintro ⟨d, hcontrol, hcommand⟩
    obtain ⟨_, rfl⟩ := pure_eq_ok_iff.1 hcontrol
    obtain ⟨_, ⟨hfits, hknown, rfl⟩, rfl⟩ := hemit.1 (hdefine.1 hcommand)
    exact ⟨hfits, hknown, rfl⟩
  · rintro ⟨hfits, hknown, rfl⟩
    exact ⟨c, rfl, hdefine.2 (hemit.2 ⟨_, ⟨hfits, hknown, rfl⟩, rfl⟩)⟩

end

/-! ## Lines of ladders and loops -/

/-- The state behind the line that opens a ladder. -/
def ifState (c : Compiler) (e : Expr) : Compiler :=
  ifEntered (Compiler.withJump { c.blockOpened .ifThen with
    structures := { c.structures with items := c.structures.items.push .ifThen } }
    (.code .cmp :: e.tree.items) ⟨c.blocks.allocated, .step 1⟩)

/-- The state where one branch ends and the next one starts. -/
def branchState (c : Compiler) (w : Word) (o : OpenBlock) (rest : List OpenBlock) : Compiler :=
  (c.withJump [.code .goto] ⟨o.number, .finish⟩).blockLinked w o rest

/-- The state behind the line that opens a loop. -/
def whileState (c : Compiler) (e : Expr) : Compiler :=
  whileEntered (Compiler.withJump { c.blockOpened .whileDo with
    structures := { c.structures with items := c.structures.items.push .whileDo } }
    (.code .cmp :: e.tree.items) ⟨c.blocks.allocated, .finish⟩) ⟨c.blocks.allocated, .finish⟩

section
variable (hc : Usual c)
include hc

omit hc in
theorem zero_ne_255 : (0 : UInt8) ≠ 255 := by
  decide

theorem line_if_eq_ok_iff (e : Expr) :
    line (headed .ifThen e.chars) c = .ok () c' ↔ c.checkSwitch (some .ifThen) = .ok () ∧
      c.blocks.allocated < c.blocks.limit ∧ c.structures.size < Stack.limit ∧
      e.Known c.symbols ∧ c' = ifState c e := by
  rw [line_headed_eq_ok_iff hc _ e.isLine]
  refine and_congr_right fun _ => ?_
  have hlast := @lastValue_eq_ok_iff _ (hc.blockOpened .ifThen
    { c.structures with items := c.structures.items.push .ifThen }).plain .cmp
  show (∃ d, openBlock .ifThen c = .ok () d ∧ enterIf _ d = .ok () c') ↔ _
  simp only [enterIf_eq_ok_iff, openBlock_eq_ok_iff (show Word.ifThen ≠ .choose by decide)]
  constructor
  · rintro ⟨_, ⟨hlt, hsize, rfl⟩, items, o, rest, hitems, ho, _, rfl⟩
    obtain ⟨rfl, rfl⟩ := List.cons.inj ho
    obtain ⟨he, rfl⟩ := (hlast _ e _).1 hitems
    exact ⟨hlt, hsize, he, rfl⟩
  · rintro ⟨hlt, hsize, he, rfl⟩
    exact ⟨_, ⟨hlt, hsize, rfl⟩, _, _, _, (hlast _ e _).2 ⟨he, rfl⟩, rfl, zero_ne_255, rfl⟩

theorem line_elseIf_eq_ok_iff (e : Expr) :
    line (headed .elseIf e.chars) c = .ok () c' ↔ c.checkSwitch (some .elseIf) = .ok () ∧
      c.structures.top? = some .ifThen ∧ ∃ o rest, c.blocks.opened = o :: rest ∧
      o.steps ≠ 255 ∧ o.steps + 1 ≠ 255 ∧ e.Known c.symbols ∧
      c' = (branchState c .elseIf o rest).withJump (.code .cmp :: e.tree.items)
        ⟨o.number, .step (o.steps + 1 + 1)⟩ := by
  rw [line_headed_eq_ok_iff hc _ e.isLine]
  refine and_congr_right fun _ => ?_
  show (∃ d, nextBranch .elseIf c = .ok () d ∧ condition .elseIf _ d = .ok () c') ↔ _
  simp only [nextBranch_eq_ok_iff, condition_eq_ok_iff]
  constructor
  · rintro ⟨_, ⟨htop, o, rest, ho, hs, rfl⟩, items, o', rest', hitems, ho', hs', rfl⟩
    obtain ⟨rfl, rfl⟩ := List.cons.inj ho'
    have hd : Plain (branchState c .elseIf o rest).context :=
      ((hc.withJump _ _).blockLinked .elseIf o rest).plain
    obtain ⟨he, rfl⟩ := (lastValue_eq_ok_iff hd .cmp _ e _).1 hitems
    exact ⟨htop, o, rest, ho, hs, hs', he, rfl⟩
  · rintro ⟨htop, o, rest, ho, hs, hs', he, rfl⟩
    have hd : Plain (branchState c .elseIf o rest).context :=
      ((hc.withJump _ _).blockLinked .elseIf o rest).plain
    exact ⟨_, ⟨htop, o, rest, ho, hs, rfl⟩, _, _, _,
      (lastValue_eq_ok_iff hd .cmp _ e _).2 ⟨he, rfl⟩, rfl, hs', rfl⟩

theorem line_otherwise_eq_ok_iff :
    line (alone .otherwise) c = .ok () c' ↔ c.checkSwitch (some .otherwise) = .ok () ∧
      c.structures.top? = some .ifThen ∧ ∃ o rest, c.blocks.opened = o :: rest ∧
      o.steps ≠ 255 ∧
      c' = branchState c .otherwise o rest := by
  rw [line_alone_eq_ok_iff hc]
  refine and_congr_right fun _ => ?_
  show (∃ d, nextBranch .otherwise c = .ok () d ∧ Compile.ofExcept
    (Scanner.expectEnd ⟨Text.utf8Length Word.otherwise.spelling.toList, []⟩) d = .ok () c') ↔ _
  simp only [nextBranch_eq_ok_iff, ofExcept_eq_ok_iff]
  constructor
  · rintro ⟨_, ⟨htop, o, rest, ho, hs, rfl⟩, _, rfl⟩
    exact ⟨htop, o, rest, ho, hs, rfl⟩
  · rintro ⟨htop, o, rest, ho, hs, rfl⟩
    exact ⟨_, ⟨htop, o, rest, ho, hs, rfl⟩, rfl, rfl⟩

theorem line_endIf_eq_ok_iff :
    line (alone .endIf) c = .ok () c' ↔ c.checkSwitch (some .endIf) = .ok () ∧
      c.structures.top? = some .ifThen ∧ ∃ o rest, c.blocks.opened = o :: rest ∧
      o.steps ≠ 255 ∧ c' = ifLeft (c.blockLeft .endIf o rest) := by
  rw [line_alone_eq_ok_iff hc]
  refine and_congr_right fun _ => ?_
  show (∃ d, closeBlock .ifThen .endIf c = .ok () d ∧ leaveIf d = .ok () c') ↔ _
  simp only [closeIf_eq_ok_iff, leaveIf_eq_ok_iff]
  constructor
  · rintro ⟨_, ⟨htop, o, rest, ho, hs, rfl⟩, rfl⟩
    exact ⟨htop, o, rest, ho, hs, rfl⟩
  · rintro ⟨htop, o, rest, ho, hs, rfl⟩
    exact ⟨_, ⟨htop, o, rest, ho, hs, rfl⟩, rfl⟩

theorem line_while_eq_ok_iff (e : Expr) :
    line (headed .whileDo e.chars) c = .ok () c' ↔ c.checkSwitch (some .whileDo) = .ok () ∧
      c.blocks.allocated < c.blocks.limit ∧ c.structures.size < Stack.limit ∧
      c.whileEnds.size < Stack.limit ∧ e.Known c.symbols ∧ c' = whileState c e := by
  rw [line_headed_eq_ok_iff hc _ e.isLine]
  refine and_congr_right fun _ => ?_
  have hlast := @lastValue_eq_ok_iff _ (hc.blockOpened .whileDo
    { c.structures with items := c.structures.items.push .whileDo }).plain .cmp
  show (∃ d, openBlock .whileDo c = .ok () d ∧ enterWhile _ d = .ok () c') ↔ _
  simp only [enterWhile_eq_ok_iff, openBlock_eq_ok_iff (show Word.whileDo ≠ .choose by decide)]
  constructor
  · rintro ⟨_, ⟨hlt, hsize, rfl⟩, hends, items, o, rest, hitems, ho, rfl⟩
    obtain ⟨rfl, rfl⟩ := List.cons.inj ho
    obtain ⟨he, rfl⟩ := (hlast _ e _).1 hitems
    exact ⟨hlt, hsize, by simpa using hends, he, rfl⟩
  · rintro ⟨hlt, hsize, hends, he, rfl⟩
    exact ⟨_, ⟨hlt, hsize, rfl⟩, by simpa using hends, _, _, _, (hlast _ e _).2 ⟨he, rfl⟩, rfl,
      rfl⟩

theorem line_endWhile_eq_ok_iff :
    line (alone .endWhile) c = .ok () c' ↔ c.checkSwitch (some .endWhile) = .ok () ∧
      c.structures.top? = some .whileDo ∧ ∃ o rest l, c.blocks.opened = o :: rest ∧
      o.steps ≠ 255 ∧ c.whileEnds.top? = some l ∧
      c' = whileLeft ((c.withJump [.code .goto] ⟨o.number, .start⟩).blockLeft .endWhile o rest)
        l := by
  rw [line_alone_eq_ok_iff hc]
  refine and_congr_right fun _ => ?_
  show (∃ d, closeBlock .whileDo .endWhile c = .ok () d ∧ leaveWhile d = .ok () c') ↔ _
  simp only [closeWhile_eq_ok_iff, leaveWhile_eq_ok_iff]
  constructor
  · rintro ⟨_, ⟨htop, o, rest, ho, hs, rfl⟩, l, hl, rfl⟩
    exact ⟨htop, o, rest, l, ho, hs, by simpa using hl, rfl⟩
  · rintro ⟨htop, o, rest, l, ho, hs, hl, rfl⟩
    exact ⟨_, ⟨htop, o, rest, ho, hs, rfl⟩, l, by simpa using hl, rfl⟩

theorem line_exit_eq_ok_iff :
    line (alone .exitWhile) c = .ok () c' ↔ c.checkSwitch (some .exitWhile) = .ok () ∧
      ∃ l, c.whileEnd = some l ∧ c' = c.withJump [.code .goto] l := by
  rw [line_alone_eq_ok_iff hc]
  refine and_congr_right fun _ => ?_
  show (∃ d, (pure () : Compile Unit) c = .ok () d ∧ exitWhile d = .ok () c') ↔ _
  simp only [exitWhile_eq_ok_iff, pure_eq_ok_iff]
  constructor
  · rintro ⟨_, ⟨_, rfl⟩, l, hl, rfl⟩
    exact ⟨l, hl, rfl⟩
  · rintro ⟨l, hl, rfl⟩
    exact ⟨c, ⟨trivial, rfl⟩, l, hl, rfl⟩

/-! ## Lines of choices -/

theorem of_line_choose_eq_ok {e : Expr} (h : line (headed .choose e.chars) c = .ok () c') :
    ∃ symbols counts depth, (symbols = c.symbols ∨ symbols = c.symbols.insert caseName .var) ∧
      c.blocks.allocated < c.blocks.limit ∧ c.switchEnds.size < Stack.limit ∧
      e.Known c.symbols ∧
      c' = chooseEntered (c.blockOpened .choose)
        ([Instruction.push caseName, .assign .mov caseName e.tree].flatMap Instruction.items)
        symbols ⟨c.blocks.allocated, .finish⟩ counts depth := by
  obtain ⟨_, d, hcontrol, hcommand⟩ := (line_headed_eq_ok_iff hc _ e.isLine).1 h
  obtain ⟨halloc, rfl⟩ := openChoose_eq_ok_iff.1 hcontrol
  obtain ⟨items, symbols, o, rest, counts, hitems, hsymbols, ho, hlt, _, rfl⟩ :=
    of_enterChoose_eq_ok hcommand
  obtain ⟨rfl, rfl⟩ := List.cons.inj ho
  have hd : Usual (c.blockOpened .choose) := hc.of_sameNames ⟨rfl, rfl⟩
  obtain ⟨he, rfl⟩ := (choice_eq_ok_iff hd.plain e _).1 hitems
  rw [Compiler.switchEnds_blockOpened] at hlt
  exact ⟨symbols, counts, _, hsymbols, halloc, hlt, he, rfl⟩

theorem line_choose_of_ifDepth {e : Expr} (hcheck : c.checkSwitch (some .choose) = .ok ())
    (hdepth : c.ifDepth = 0) (halloc : c.blocks.allocated < c.blocks.limit)
    (hends : c.switchEnds.size < Stack.limit) (hsize : c.structures.size < Stack.limit)
    (he : e.Known c.symbols) :
    ∃ symbols, line (headed .choose e.chars) c = .ok () (chooseEntered (c.blockOpened .choose)
      ([Instruction.push caseName, .assign .mov caseName e.tree].flatMap Instruction.items)
      symbols ⟨c.blocks.allocated, .finish⟩ c.switchesInIf (c.switchDepth + 1)) := by
  have hd : Usual (c.blockOpened .choose) := hc.of_sameNames ⟨rfl, rfl⟩
  obtain ⟨symbols, henter⟩ := enterChoose_of_ifDepth (c := c.blockOpened .choose) hdepth
    ((choice_eq_ok_iff hd.plain e _).2 ⟨he, rfl⟩) rfl hends hsize
  refine ⟨symbols, (line_headed_eq_ok_iff hc _ e.isLine).2 ⟨hcheck, _, ?_, henter⟩⟩
  exact openChoose_eq_ok_iff.2 ⟨halloc, rfl⟩

theorem line_case_eq_ok_iff (e : Expr) :
    line (headed .caseOf e.chars) c = .ok () c' ↔ c.checkSwitch (some .caseOf) = .ok () ∧
      c.structures.top? = some .choose ∧ ∃ o rest, c.blocks.opened = o :: rest ∧
      o.steps ≠ 255 ∧ o.steps + 1 ≠ 255 ∧ e.Known c.symbols ∧
      c' = ((c.blockLinked .caseOf o rest).withJump (.code .case :: e.tree.items)
        ⟨o.number, .step (o.steps + 1 + 1)⟩).withCase true := by
  rw [line_headed_eq_ok_iff hc _ e.isLine]
  refine and_congr_right fun _ => ?_
  show (∃ d, nextClause .caseOf c = .ok () d ∧ enterCase _ d = .ok () c') ↔ _
  simp only [nextClause_eq_ok_iff, enterCase_eq_ok_iff]
  constructor
  · rintro ⟨_, ⟨htop, o, rest, ho, hs, rfl⟩, items, o', rest', hitems, ho', hs', rfl⟩
    obtain ⟨rfl, rfl⟩ := List.cons.inj ho'
    have hd := (hc.blockLinked .caseOf o rest).plain
    obtain ⟨he, rfl⟩ := (lastValue_eq_ok_iff hd .case _ e _).1 hitems
    exact ⟨htop, o, rest, ho, hs, hs', he, rfl⟩
  · rintro ⟨htop, o, rest, ho, hs, hs', he, rfl⟩
    have hd := (hc.blockLinked .caseOf o rest).plain
    exact ⟨_, ⟨htop, o, rest, ho, hs, rfl⟩, _, _, _,
      (lastValue_eq_ok_iff hd .case _ e _).2 ⟨he, rfl⟩, rfl, hs', rfl⟩

theorem line_default_eq_ok_iff :
    line (alone .default) c = .ok () c' ↔ c.checkSwitch (some .default) = .ok () ∧
      c.structures.top? = some .choose ∧ ∃ o rest, c.blocks.opened = o :: rest ∧
      o.steps ≠ 255 ∧ c' = (c.blockLinked .default o rest).withCase true := by
  rw [line_alone_eq_ok_iff hc]
  refine and_congr_right fun _ => ?_
  show (∃ d, nextClause .default c = .ok () d ∧
    (modify fun c => { c with inCase := true } : Compile Unit) d = .ok () c') ↔ _
  simp only [nextClause_eq_ok_iff, modify_eq_ok_iff]
  constructor
  · rintro ⟨_, ⟨htop, o, rest, ho, hs, rfl⟩, rfl⟩
    exact ⟨htop, o, rest, ho, hs, rfl⟩
  · rintro ⟨htop, o, rest, ho, hs, rfl⟩
    exact ⟨_, ⟨htop, o, rest, ho, hs, rfl⟩, rfl⟩

theorem line_break_eq_ok_iff :
    line (alone .breakOut) c = .ok () c' ↔ c.checkSwitch (some .breakOut) = .ok () ∧
      ∃ l, c.switchEnds.top? = some l ∧ c' = (c.withJump [.code .goto] l).withCase
        (if c.switchDepth = 1 then false else c.inCase) := by
  rw [line_alone_eq_ok_iff hc]
  refine and_congr_right fun _ => ?_
  show (∃ d, breakChoose c = .ok () d ∧ leaveCase d = .ok () c') ↔ _
  simp only [breakChoose_eq_ok_iff, leaveCase, modify_eq_ok_iff]
  constructor
  · rintro ⟨_, ⟨l, hl, rfl⟩, rfl⟩
    exact ⟨l, hl, rfl⟩
  · rintro ⟨l, hl, rfl⟩
    exact ⟨_, ⟨l, hl, rfl⟩, rfl⟩

theorem line_endChoose_eq_ok_iff :
    line (alone .endChoose) c = .ok () c' ↔ c.checkSwitch (some .endChoose) = .ok () ∧
      c.structures.top? = some .choose ∧ ∃ o rest l, c.blocks.opened = o :: rest ∧
      o.steps ≠ 255 ∧ c.switchEnds.top? = some l ∧ c.switchDepth ≠ 0 ∧
      c' = chooseLeft { c.blockLeft .endChoose o rest with
        switchEnds := { c.switchEnds with items := c.switchEnds.items.pop } } := by
  rw [line_alone_eq_ok_iff hc]
  refine and_congr_right fun _ => ?_
  show (∃ d, closeBlock .choose .endChoose c = .ok () d ∧ leaveChoose d = .ok () c') ↔ _
  simp only [closeChoose_eq_ok_iff, leaveChoose_eq_ok_iff]
  constructor
  · rintro ⟨_, ⟨htop, o, rest, l, ho, hs, hl, rfl⟩, hdepth, rfl⟩
    exact ⟨htop, o, rest, l, ho, hs, hl, hdepth, rfl⟩
  · rintro ⟨htop, o, rest, l, ho, hs, hl, hdepth, rfl⟩
    exact ⟨_, ⟨htop, o, rest, l, ho, hs, hl, rfl⟩, hdepth, rfl⟩

end

end Structured

end ScriptMachine
