/-
  ScriptMachine.Proofs.Phrases.Compilation

  Compiling a line that updates a variable with a phrase.  The statement of a group is
  compiled to one assignment to its temporary, which the statement itself makes a variable;
  so the line is compiled to one assignment for each group and the update of the variable
  (`update_compiled`).
-/

import ScriptMachine.Proofs.Phrases.Reading

namespace ScriptMachine.Phrases

open Compile Structured
open Grouped (Free Notes forM_append_eq_ok_iff forM_singleton_eq_ok_iff get?_noted
  isWord_temporary noted notes_noted ofInstructions_append statement_temporary statement_var
  temporary temporaryName textFits_temporaryName writes_noted)

/-! ## Instructions -/

mutual

/-- The instructions for the groups in an operand. -/
def Part.code (t : Symbols) (n : Nat) : Part → List Instruction
  | .atom _ => []
  | .group p =>
    p.code t (n + 1) ++ [.assign .mov (temporaryName n) (p.tree t (n + 1))]

/-- The instructions for the groups in a phrase. -/
def Phrase.code (t : Symbols) (n : Nat) : Phrase → List Instruction
  | .last _ i _ => i.code t n
  | .more _ i _ _ rest => i.code t n ++ rest.code t (n + i.pairs)

end

/-- The instructions of the line that updates a variable. -/
def updateCode (t : Symbols) (x : Mention) (how : Assignment) (p : Phrase) : List Instruction :=
  p.code t 0 ++ [.assign how x.text (p.tree t 0)]

mutual

theorem Part.length_code (t : Symbols) (n : Nat) (i : Part) : (i.code t n).length = i.pairs := by
  match i with
  | .atom _ => rfl
  | .group p =>
    rw [Part.code, List.length_append, p.length_code, Part.pairs, Nat.add_comm]
    rfl

/-- There is one instruction for each group. -/
theorem Phrase.length_code (t : Symbols) (n : Nat) (p : Phrase) :
    (p.code t n).length = p.pairs := by
  match p with
  | .last _ i _ => exact i.length_code t n
  | .more _ i _ _ rest =>
    rw [Phrase.code, List.length_append, i.length_code, rest.length_code, Phrase.pairs]

end

/-! ## Assignments -/

theorem Spelling.skip_blanks (how : Assignment) {g cs : List Char}
    (hg : ∀ c ∈ g, blanks.contains c = true) (o : Nat) :
    Scanner.skip blanks ⟨o, g ++ (spelling how ++ cs)⟩ =
      ⟨o + Text.utf8Length g, spelling how ++ cs⟩ := by
  refine Scanner.skip_append hg fun c hc => ?_
  cases how <;>
    · obtain rfl := Option.some.inj hc
      decide

/-- An assignment of an expression up to the end of the line. -/
theorem assignment_of_expression {ctx : Context} {how : Assignment} {name : String}
    {s : Scanner} {offset : Nat} {cs : List Char} {e : Expression}
    (hs : s.skip blanks = ⟨offset, spelling how ++ cs⟩)
    (hcs : ∀ c ∈ cs.head?, assigning.contains c = false) (hfits : Item.textFits name = true)
    (he : ∀ o, ∃ u h, ctx.expression true ⟨o, cs⟩ = ⟨e.items, .ok (.found u h)⟩ ∧
      ∀ c ∈ u.rest, blanks.contains c = true) :
    ctx.assignment name s = ⟨(Instruction.assign how name e).items, .ok ()⟩ := by
  have hop : Scanner.operator? assigning ⟨offset, spelling how ++ cs⟩ =
      some (spelling how, ⟨offset + Text.utf8Length (spelling how), cs⟩) := by
    refine Scanner.operator?_append ?_ ?_ hcs
    · cases how <;> decide
    · cases how <;> exact List.all_eq_true.1 (by decide)
  have hstep : ¬ (how.opcode = .inc ∨ how.opcode = .dec) := by cases how <;> decide
  obtain ⟨u, h, hexpr, hblank⟩ := he (offset + Text.utf8Length (spelling how))
  have hend : u.expectEnd = .ok () := by
    have hskip := @Scanner.skip_append blanks u.rest [] u.offset hblank (by simp)
    rw [List.append_nil] at hskip
    rw [Scanner.expectEnd, show u.skip blanks = _ from hskip]
    rfl
  unfold Context.assignment
  dsimp only
  rw [hs, show ['=', '+', '-', '*', '/', '%'] = assigning from rfl, hop]
  simp only [assignmentOpcode?_spelling, if_neg hstep, Draft.put_bind_eq_ok_iff, Item.check_var_iff]
  refine ⟨rfl, _, ⟨hfits, _, ?_, rfl⟩, rfl⟩
  rw [Context.value, hexpr, Draft.bind_of_ok rfl]
  dsimp only
  rw [hend]
  exact congrArg (Draft.mk · _) (List.append_nil _)

/-! ## Statements -/

section
variable {c c' c₀ : Compiler} {limit : Nat}

theorem extends_of_notes (h : Notes c c') : Extends c.symbols c'.symbols := by
  intro name s hs
  rcases h.names name with heq | ⟨hnone, _⟩
  · rw [heq]
    exact hs
  · rw [hnone] at hs
    cases hs

theorem Phrase.Slotted.mono {t t' t'' : Symbols} (hext : Extends t' t'') :
    ∀ {p : Phrase} {n : Nat}, p.Slotted t t' limit n → p.Slotted t t'' limit n
  | .last _ _ _, _, h => Part.Slotted.mono h hext
  | .more _ _ _ _ _, _, h => ⟨h.1.mono hext, Phrase.Slotted.mono hext h.2⟩

/-- The statement of a group whose operands are known. -/
theorem statement_group (hmax : limit ≤ c₀.config.maxString) (hbase : Notes c₀ c) {p : Phrase}
    {n : Nat} (hfree : Free c.symbols (temporaryName n)) (hn : n ≤ 65535)
    (hp : p.Slotted c₀.symbols c.symbols limit (n + 1)) :
    ∃ c', statement (temporary n ++ '=' :: p.own (n + 1)) c = .ok () c' ∧
      c.Writes (Plan.ofInstructions
        [.assign .mov (temporaryName n) (p.tree c₀.symbols (n + 1))]) c' ∧
      Notes c c' ∧ IsVariable c'.symbols (temporaryName n) := by
  have hfits := textFits_temporaryName hn
  have hnotes := notes_noted c (temporaryName n)
  have hmax' : limit ≤ (noted c (temporaryName n)).context.maxString := by
    have hconfig := (hbase.trans hnotes).config
    rw [show (noted c (temporaryName n)).context.maxString =
      (noted c (temporaryName n)).config.maxString from rfl, hconfig]
    exact hmax
  have hext : Extends c₀.symbols (noted c (temporaryName n)).context.symbols :=
    extends_of_notes (hbase.trans hnotes)
  have hp' : p.Slotted c₀.symbols (noted c (temporaryName n)).context.symbols limit (n + 1) :=
    hp.mono (extends_of_notes hnotes)
  have hskip := @Spelling.skip_blanks .mov [] (p.own (n + 1)) (by simp)
    (Text.utf8Length (temporary n))
  have hdraft := assignment_of_expression hskip
    (p.head_contains (n + 1) (by decide)) hfits (Phrase.expression hmax' hext hp' true)
  refine ⟨{ noted c (temporaryName n) with
    program := (noted c (temporaryName n)).program.writeAll
      (Instruction.assign .mov (temporaryName n) (p.tree c₀.symbols (n + 1))).items },
    ?_, ?_, ?_, ?_⟩
  · rw [statement_temporary hfree]
    exact emit_eq_ok_iff.2 ⟨_, hdraft, rfl⟩
  · exact (writes_noted c _).trans (writes_plain ⟨⟨hfits, Phrase.Slotted.legible hp⟩, rfl⟩)
  · exact hnotes.trans ⟨rfl, rfl, fun _ => .inl rfl⟩
  · exact ⟨get?_noted c hfree, hfits⟩

mutual

theorem Part.compiled (hmax : limit ≤ c₀.config.maxString) (i : Part) (n : Nat) {c : Compiler}
    (hbase : Notes c₀ c) (husable : ∀ a ∈ i.atoms, a.Usable c₀.symbols limit)
    (hfree : ∀ k, n ≤ k → k < n + i.pairs → Free c₀.symbols (temporaryName k))
    (hn : n + i.pairs ≤ 65536) :
    ∃ c', (i.pieces n).forM statement c = .ok () c' ∧
      c.Writes (Plan.ofInstructions (i.code c₀.symbols n)) c' ∧ Notes c c' ∧
      i.Slotted c₀.symbols c'.symbols limit n := by
  match i with
  | .atom a => exact ⟨c, rfl, .refl c, .refl c, husable a List.mem_cons_self⟩
  | .group p =>
    have hpairs : (Part.group p).pairs = 1 + p.pairs := by rw [Part.pairs]
    rw [hpairs] at hfree hn
    rw [Part.atoms] at husable
    obtain ⟨c₁, hinner, hwrites, hnotes, hslotted⟩ := p.compiled hmax (n + 1) hbase husable
      (fun k _ _ => hfree k (by omega) (by omega)) (by omega)
    have htrans := hbase.trans hnotes
    obtain ⟨c₂, hown, hwrites', hnotes', hvar⟩ := statement_group hmax htrans
      (htrans.free (hfree n (by omega) (by omega))) (by omega) hslotted
    refine ⟨c₂, ?_, ?_, hnotes.trans hnotes', hvar⟩
    · rw [Part.pieces]
      exact forM_append_eq_ok_iff.2 ⟨c₁, hinner, forM_singleton_eq_ok_iff.2 hown⟩
    · rw [Part.code, ofInstructions_append]
      exact hwrites.trans hwrites'

/-- The statements of the groups in a phrase are compiled to their instructions.  By
induction on the phrase, with the number of groups opened before it general. -/
theorem Phrase.compiled (hmax : limit ≤ c₀.config.maxString) (p : Phrase) (n : Nat) {c : Compiler}
    (hbase : Notes c₀ c) (husable : ∀ a ∈ p.atoms, a.Usable c₀.symbols limit)
    (hfree : ∀ k, n ≤ k → k < n + p.pairs → Free c₀.symbols (temporaryName k))
    (hn : n + p.pairs ≤ 65536) :
    ∃ c', (p.pieces n).forM statement c = .ok () c' ∧
      c.Writes (Plan.ofInstructions (p.code c₀.symbols n)) c' ∧ Notes c c' ∧
      p.Slotted c₀.symbols c'.symbols limit n := by
  match p with
  | .last front i z =>
    rw [Phrase.pieces, Phrase.code]
    rw [Phrase.atoms] at husable
    rw [Phrase.pairs] at hfree hn
    exact i.compiled hmax n hbase husable hfree hn
  | .more front i back sign rest =>
    rw [Phrase.atoms] at husable
    rw [Phrase.pairs] at hfree hn
    obtain ⟨husablei, husablerest⟩ := List.forall_mem_append.1 husable
    obtain ⟨c₁, hi, hwrites, hnotes, hslotted⟩ := i.compiled hmax n hbase husablei
      (fun k _ _ => hfree k (by omega) (by omega)) (by omega)
    obtain ⟨c₂, hrest, hwrites', hnotes', hslotted'⟩ := rest.compiled hmax (n + i.pairs)
      (hbase.trans hnotes) husablerest (fun k _ _ => hfree k (by omega) (by omega)) (by omega)
    refine ⟨c₂, ?_, ?_, hnotes.trans hnotes', hslotted.mono (extends_of_notes hnotes'),
      hslotted'⟩
    · rw [Phrase.pieces]
      exact forM_append_eq_ok_iff.2 ⟨c₁, hi, hrest⟩
    · rw [Phrase.code, ofInstructions_append]
      exact hwrites.trans hwrites'

end

end

/-! ## Lines -/

section
variable {c : Compiler} {x : Mention} {gap : Fill blanks} {how : Assignment} {p : Phrase}

/-- A name without an opening parenthesis is read as a whole at the start of a line. -/
theorem Mention.leading (hopen : '(' ∉ x.chars) :
    ∀ c ∈ x.chars, ('%' :: headStop).contains c = false := by
  intro c hc
  have hne : c ≠ '(' := fun heq => hopen (heq ▸ hc)
  have hstop := x.whole c hc
  simp only [operandStop, List.contains_cons, Bool.or_eq_false_iff, beq_eq_false_iff_ne] at hstop
  simp only [headStop, List.contains_cons, Bool.or_eq_false_iff, beq_eq_false_iff_ne]
  grind

theorem Mention.head_blanks (x : Mention) (cs : List Char) :
    ∀ c ∈ (x.chars ++ cs).head?, blanks.contains c = false := by
  have hne := x.nonempty
  have hwhole := x.whole
  cases hx : x.chars with
  | nil => exact absurd hx hne
  | cons d ds =>
    intro c hc
    obtain rfl := Option.some.inj hc
    exact contains_of_all (by decide) (hwhole d (by simp [hx]))

/-- Behind the first word of a line stands what ends it; for `%=` that takes a blank. -/
theorem head_update (hgap : how = .mod → gap.1 ≠ []) (cs : List Char) :
    ∀ c ∈ (gap.1 ++ (spelling how ++ cs)).head?, headStop.contains c = true := by
  have hall : ∀ c ∈ gap.1, headStop.contains c = true := fun c hc =>
    all_of_contains (by decide) (gap.2 c hc)
  cases hg : gap.1 with
  | nil =>
    intro c hc
    cases how with
    | mod => exact absurd hg (hgap rfl)
    | _ =>
      obtain rfl := Option.some.inj hc
      decide
  | cons d ds =>
    intro c hc
    obtain rfl := Option.some.inj hc
    exact hall d (by simp [hg])

/-- The line that updates a variable with a phrase over known names is compiled, as long as
its temporaries stand for nothing else than variables. -/
theorem update_compiled (hstem : c.config.stem = "$") (hopen : '(' ∉ x.chars)
    (hgap : how = .mod → gap.1 ≠ []) (hx : IsVariable c.symbols x.text)
    (husable : ∀ a ∈ p.atoms, a.Usable c.symbols c.config.maxString)
    (hfree : ∀ k < p.pairs, Free c.symbols (temporaryName k)) (hpairs : p.pairs ≤ 65536) :
    ∃ c', line (updateLine x gap how p) c = .ok () c' ∧ Notes c c' ∧
      c.Writes (Plan.ofInstructions (updateCode c.symbols x how p)) c' := by
  have hleading := x.leading hopen
  have hhead : head? headStop (updateLine x gap how p) = _ :=
    head?_append x.nonempty (fun d hd => contains_of_all (by decide) (hleading d hd))
      (x.head_blanks _) (head_update hgap p.chars)
  have hopening := opening_of_passes (congrFun hhead c) (.inl ⟨_, hx.1, by simp⟩)
  rw [hstem, statements_update] at hopening
  obtain ⟨d, hpieces, hwrites, hnotes, hslotted⟩ := p.compiled (Nat.le_refl _) 0 (.refl c) husable
    (fun k _ hk => hfree k (by omega)) (by omega)
  -- the statement of the variable
  have hstop : ∀ d ∈ (gap.1 ++ (spelling how ++ p.own 0)).head?,
      ('%' :: headStop).contains d = true := by
    refine gap.head_contains (by decide) fun d hd => ?_
    cases how <;>
      · obtain rfl := Option.some.inj hd
        decide
  have hstatement : statement (ownStatement x gap how p) d = _ :=
    statement_var x.nonempty hleading (x.head_blanks _) hstop (hnotes.var hx.1)
  have hmax : c.config.maxString ≤ d.context.maxString := by
    rw [show d.context.maxString = d.config.maxString from rfl, hnotes.config]
  have hdraft := assignment_of_expression
    (Spelling.skip_blanks how gap.2 (Text.utf8Length x.chars)) (p.head_contains 0 (by decide)) hx.2
    (Phrase.expression hmax (extends_of_notes hnotes) hslotted true)
  have hown : statement (ownStatement x gap how p) d = .ok () { d with
      program := d.program.writeAll
        (Instruction.assign how x.text (p.tree c.symbols 0)).items } := by
    rw [hstatement]
    exact emit_eq_ok_iff.2 ⟨_, hdraft, rfl⟩
  have hline := line_eq_ok_iff.2 ⟨_, c, hopening,
    forM_append_eq_ok_iff.2 ⟨d, hpieces, forM_singleton_eq_ok_iff.2 hown⟩⟩
  refine ⟨_, hline, hnotes.trans ⟨rfl, rfl, fun _ => .inl rfl⟩, ?_⟩
  · rw [updateCode, ofInstructions_append]
    exact hwrites.trans (writes_plain ⟨⟨hx.2, Phrase.Slotted.legible hslotted⟩, rfl⟩)

end

end ScriptMachine.Phrases
