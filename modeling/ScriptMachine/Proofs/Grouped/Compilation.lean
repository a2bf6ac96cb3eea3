/-
  ScriptMachine.Proofs.Grouped.Compilation

  Compiling a line of arithmetic with parentheses.  The statement of an operation is
  compiled to one assignment to its temporary, which the statement itself makes a
  variable; so the line is compiled to one assignment for each operation and a last one
  for the variable (`line_compiled`).
-/

import ScriptMachine.Proofs.Feeding
import ScriptMachine.Proofs.Grouped.Splitting
import ScriptMachine.Proofs.Structured.Compilation

namespace ScriptMachine

theorem Scanner.skip_cons_of_contains {set cs : List Char} {c : Char} {o : Nat}
    (hc : set.contains c = true) : skip set ⟨o, c :: cs⟩ = skip set ⟨o + c.utf8Size, cs⟩ := by
  simp only [skip, run, List.takeWhile_cons_of_pos hc, List.dropWhile_cons_of_pos hc,
    Text.utf8Length_cons, Nat.add_assoc]

theorem Text.utf8Length_le (cs : List Char) : utf8Length cs ≤ 4 * cs.length := by
  induction cs with
  | nil => exact Nat.le_refl 0
  | cons c cs ih =>
    have hc := c.utf8Size_le_four
    rw [utf8Length_cons, List.length_cons]
    omega

theorem contains_of_all {small large : List Char} (h : small.all large.contains = true) {c : Char}
    (hc : large.contains c = false) : small.contains c = false := by
  rw [Bool.eq_false_iff]
  intro hmem
  rw [all_of_contains h hmem] at hc
  cases hc

namespace Grouped

open Compile Structured

/-! ## Temporaries -/

theorem temporary_eq (n : Nat) : temporary n = '$' :: Nat.toDigits 10 n :=
  rfl

theorem isWord_temporary (n : Nat) : IsWord (temporary n) := by
  refine ⟨by simp [temporary_eq], ?_⟩
  rw [temporary_eq]
  refine List.forall_mem_cons.2 ⟨by decide, fun c hc => ?_⟩
  exact isOrdinary_of_isDigit (Nat.isDigit_of_mem_toDigits (by decide) (by decide) hc)

theorem temporaryName_injective {m n : Nat} (h : temporaryName m = temporaryName n) : m = n := by
  have hchars : '$' :: Nat.toDigits 10 m = '$' :: Nat.toDigits 10 n := String.ofList_injective h
  have hdigits := congrArg (fun ds => Nat.ofDigitChars 10 ds 0) (List.cons.inj hchars).2
  simpa only [Nat.ofDigitChars_ten_toDigits] using hdigits

theorem Variable.text_ne_temporaryName (x : Variable) (n : Nat) : x.text ≠ temporaryName n := by
  intro h
  have hchars : x.chars = '$' :: Nat.toDigits 10 n := String.ofList_injective h
  exact x.permanent '$' (by rw [hchars]; rfl) rfl

theorem textFits_temporaryName {n : Nat} (h : n ≤ 65535) :
    Item.textFits (temporaryName n) = true := by
  have hlen : (Nat.toDigits 10 n).length ≤ 5 :=
    (Nat.length_toDigits_le_iff (by decide) (by decide)).2 (by omega)
  have hbytes := Text.utf8Length_le (temporary n)
  have hsize : (temporaryName n).utf8ByteSize = Text.utf8Length (temporary n) := by
    rw [← Text.utf8Length_toList, temporaryName, String.toList_ofList]
  rw [temporary_eq n, List.length_cons, ← temporary_eq] at hbytes
  simp only [Item.textFits, hsize, decide_eq_true_eq]
  omega

theorem temporaryName_ne {text : String} (h : text.toList.head? ≠ some '$') (n : Nat) :
    temporaryName n ≠ text := by
  rintro rfl
  exact h (by rw [temporaryName, String.toList_ofList, temporary_eq, List.head?_cons])

theorem temporaryName_ne_spelling (n : Nat) (w : Word) : temporaryName n ≠ w.spelling :=
  temporaryName_ne (by cases w <;> decide) n

/-- A temporary can always be made a variable. -/
theorem set_temporaryName (t : Symbols) (n : Nat) :
    t.set (temporaryName n) .var = .ok (t.insert (temporaryName n) .var) := by
  refine Symbols.set_eq_ok_iff.2 ⟨?_, ?_, rfl⟩
  · intro h
    have hnil : '$' :: Nat.toDigits 10 n = [] := String.ofList_injective h
    cases hnil
  · rw [Symbols.isReserved, Option.isSome_eq_false_iff, Option.isNone_iff_eq_none]
    cases hw : Word.ofSpelling? (temporaryName n) with
    | none => rfl
    | some w => exact absurd (Word.spelling_of_ofSpelling? hw).symm (temporaryName_ne_spelling n w)

theorem isAutoVariable_temporaryName (config : Config) (n : Nat) :
    isAutoVariable config (temporaryName n) = true := by
  rw [isAutoVariable, temporaryName, String.toList_ofList, temporary_eq]
  rfl

/-! ## Operands -/

/-- Wherever the text stands with a blank or nothing behind it, it is read as the
operand. -/
def Reads (ctx : Context) (cs : List Char) (o : Operand) : Prop :=
  ∀ (first : Bool) (offset : Nat) (rest : List Char), Follows rest → ∃ t offset',
    Scanner.skip (blanks ++ ['[']) ⟨offset, cs ++ rest⟩ = t ∧
      ∃ h, ctx.operand first t = ⟨o.items, .ok (.found ⟨offset', rest⟩ h)⟩

section
variable {ctx : Context}

theorem Reads.blank {cs : List Char} {o : Operand} (h : Reads ctx cs o) :
    Reads ctx (' ' :: cs) o := by
  intro first offset rest hrest
  rw [List.cons_append, Scanner.skip_cons_of_contains (by decide)]
  exact h first _ rest hrest

/-- An operand without the characters that end one is found where it starts. -/
theorem reads_of_operand {w : List Char} {o : Operand} (hne : w ≠ [])
    (hw : ∀ c ∈ w, operandStop.contains c = false)
    (ho : ∀ first offset rest, Follows rest → ∃ offset' h,
      ctx.operand first ⟨offset, w ++ rest⟩ = ⟨o.items, .ok (.found ⟨offset', rest⟩ h)⟩) :
    Reads ctx w o := by
  intro first offset rest hrest
  obtain ⟨offset', h⟩ := ho first offset rest hrest
  refine ⟨_, offset', Scanner.skip_of_head ?_, h⟩
  cases w with
  | nil => exact absurd rfl hne
  | cons d ds =>
    intro c hc
    obtain rfl := Option.some.inj hc
    exact contains_of_all (by decide) (hw d List.mem_cons_self)

theorem reads_number (d : Digits) : Reads ctx d.chars (.num d.value) := by
  have hw : ∀ c ∈ d.chars, operandStop.contains c = false := fun c hc =>
    contains_of_isOrdinary (d.isWord.2 c hc) (by decide)
  refine reads_of_operand d.isWord.1 hw fun first offset rest hrest => ?_
  exact operand_number first (hrest.contains (by decide)) offset d

/-- A variable is read where its name is neither a number nor marked. -/
theorem reads_var {w : List Char} (hne : w ≠ []) (hw : ∀ c ∈ w, operandStop.contains c = false)
    (hhead : ∀ c ∈ w.head?, ['"', '#'].contains c = false) (hdigits : Text.isDigits w = false)
    (hvar : ctx.symbols.get? (String.ofList w) = some .var)
    (hfits : Item.textFits (String.ofList w) = true) :
    Reads ctx w (.var (String.ofList w)) := by
  refine reads_of_operand hne hw fun first offset rest hrest => ?_
  have hhead' : ∀ c ∈ (w ++ rest).head?, ['"', '#'].contains c = false := by
    cases w with
    | nil => exact absurd rfl hne
    | cons d ds => exact hhead
  exact operand_variable first (hrest.contains (by decide)) offset hne hw hhead' hdigits hvar hfits

/-! ## Expressions -/

theorem ne_close (sign : Sign) : sign.1.2 ≠ .close := by
  intro hclose
  exact Operator.ofSpelling?_ne_close sign.1.1 (by rw [sign.ofSpelling?, hclose])

theorem Reads.expression {cs : List Char} {o : Operand} (h : Reads ctx cs o) (first : Bool)
    (offset : Nat) :
    ∃ offset' k, ctx.expression first ⟨offset, cs⟩ =
      ⟨(Expression.last o).items, .ok (.found ⟨offset', []⟩ k)⟩ := by
  obtain ⟨t, offset', ht, ho⟩ := h first offset [] follows_nil
  rw [List.append_nil] at ht
  obtain ⟨k, hexpr⟩ := Context.expression_of_operator?_none ht ho (v := ⟨offset', []⟩) rfl rfl
  exact ⟨offset', k, hexpr⟩

/-- An operation: its operands with blanks around its sign. -/
theorem Reads.operation {ls rs : List Char} {a b : Operand} (ha : Reads ctx ls a)
    (hb : Reads ctx rs b) (sign : Sign) (first : Bool) (offset : Nat) :
    ∃ offset' k, ctx.expression first ⟨offset, ls ++ ' ' :: (sign.1.1 ++ ' ' :: rs)⟩ =
      ⟨(Expression.more a sign.1.2 (.last b)).items, .ok (.found ⟨offset', []⟩ k)⟩ := by
  obtain ⟨t, o₁, ht, ho⟩ := ha first offset _ (follows_blank (sign.1.1 ++ ' ' :: rs))
  obtain ⟨k, hexpr⟩ := Context.expression_of_operator?_some ht ho (sign.skip_blank _ o₁)
    (sign.operator? _ _) sign.ofSpelling?
  obtain ⟨o₂, k₂, hlast⟩ :=
    hb.blank.expression false (o₁ + Text.utf8Length [' '] + Text.utf8Length sign.1.1)
  refine ⟨o₂, Nat.lt_of_lt_of_le k₂ k, ?_⟩
  rw [hexpr, hlast]
  rfl

/-! ## Assignments -/

/-- A plain assignment of an expression up to the end of the line. -/
theorem assignment_mov_iff {name : String} {s : Scanner} {offset : Nat} {cs : List Char}
    {e : Expression} {items : List Item} (hs : s.skip blanks = ⟨offset, '=' :: cs⟩)
    (hcs : ∀ c ∈ cs.head?, assigning.contains c = false)
    (he : ∀ offset, ∃ offset' k, ctx.expression true ⟨offset, cs⟩ =
      ⟨e.items, .ok (.found ⟨offset', []⟩ k)⟩) :
    ctx.assignment name s = ⟨items, .ok ()⟩ ↔
      Item.textFits name = true ∧ items = (Instruction.assign .mov name e).items := by
  have hop : Scanner.operator? assigning ⟨offset, ['='] ++ cs⟩ =
      some (['='], ⟨offset + Text.utf8Length ['='], cs⟩) :=
    Scanner.operator?_append (by simp) (List.forall_mem_singleton.2 rfl) hcs
  obtain ⟨offset', k, he⟩ := he (offset + Text.utf8Length ['='])
  have hopcode : Context.assignmentOpcode? ['='] = some .mov := rfl
  have hstep : ¬ (Opcode.mov = .inc ∨ Opcode.mov = .dec) := by decide
  unfold Context.assignment
  dsimp only
  rw [hs, show ['=', '+', '-', '*', '/', '%'] = assigning from rfl,
    show '=' :: cs = ['='] ++ cs from rfl, hop]
  simp only [hopcode, if_neg hstep, Draft.put_bind_eq_ok_iff, Item.check_var_iff]
  rw [Context.value, he, Draft.bind_of_ok rfl]
  have hnothing : e.items ++ (Draft.ofExcept (Scanner.expectEnd ⟨offset', []⟩)).items = e.items :=
    List.append_nil _
  rw [hnothing]
  constructor
  · rintro ⟨_, _, ⟨hfits, _, heq, rfl⟩, rfl⟩
    obtain rfl := (Draft.mk.inj heq).1
    exact ⟨hfits, rfl⟩
  · rintro ⟨hfits, rfl⟩
    exact ⟨rfl, _, ⟨hfits, _, rfl, rfl⟩, rfl⟩

end

/-! ## Statements -/

section
variable {c c' d : Compiler}

/-- The settings and the open structures stay, and so do all names but for new
variables. -/
structure Notes (c c' : Compiler) : Prop where
  config : c'.config = c.config
  structures : c'.structures = c.structures
  names : ∀ name, c'.symbols.get? name = c.symbols.get? name ∨
    c.symbols.get? name = none ∧ c'.symbols.get? name = some .var

theorem Notes.refl (c : Compiler) : Notes c c :=
  ⟨rfl, rfl, fun _ => .inl rfl⟩

theorem Notes.trans (h : Notes c d) (k : Notes d c') : Notes c c' := by
  refine ⟨k.config.trans h.config, k.structures.trans h.structures, fun name => ?_⟩
  rcases k.names name with heq | ⟨hnone, hvar⟩
  · rw [heq]
    exact h.names name
  · rcases h.names name with heq | ⟨_, hvar'⟩
    · rw [← heq]
      exact .inr ⟨hnone, hvar⟩
    · rw [hvar'] at hnone
      cases hnone

/-- A name that stands for nothing else than a variable. -/
def Free (t : Symbols) (name : String) : Prop :=
  t.get? name = none ∨ t.get? name = some .var

theorem Notes.var (h : Notes c c') {name : String} (hvar : c.symbols.get? name = some .var) :
    c'.symbols.get? name = some .var := by
  rcases h.names name with heq | ⟨_, hvar'⟩
  · rw [heq, hvar]
  · exact hvar'

theorem Notes.free (h : Notes c c') {name : String} (hfree : Free c.symbols name) :
    Free c'.symbols name := by
  rcases h.names name with heq | ⟨_, hvar⟩
  · rw [Free, heq]
    exact hfree
  · exact .inr hvar

/-- The state in which the name is a variable. -/
def noted (c : Compiler) (name : String) : Compiler :=
  if c.symbols.contains name then c else { c with symbols := c.symbols.insert name .var }

/-- A statement that starts with the name of a variable. -/
theorem statement_var {w rest : List Char} (hne : w ≠ [])
    (hw : ∀ c ∈ w, ('%' :: headStop).contains c = false)
    (hhead : ∀ c ∈ (w ++ rest).head?, blanks.contains c = false)
    (hrest : ∀ c ∈ rest.head?, ('%' :: headStop).contains c = true)
    (hvar : c.symbols.get? (String.ofList w) = some .var) :
    statement (w ++ rest) c =
      emit (·.assignment (String.ofList w) ⟨Text.utf8Length w, rest⟩) c :=
  statement_of_symbol (congrFun (head?_append hne hw hhead hrest) c) hvar

theorem get?_noted (c : Compiler) {name : String} (hfree : Free c.symbols name) :
    (noted c name).symbols.get? name = some .var := by
  unfold noted
  split
  · rename_i hcontains
    rw [Symbols.contains_eq] at hcontains
    rcases hfree with hnone | hvar
    · rw [hnone] at hcontains
      cases hcontains
    · exact hvar
  · exact (Symbols.get?_insert ..).trans (if_pos rfl)

theorem notes_noted (c : Compiler) (name : String) : Notes c (noted c name) := by
  unfold noted
  split
  · exact .refl c
  · rename_i hcontains
    refine ⟨rfl, rfl, fun other => ?_⟩
    rw [Symbols.get?_insert]
    split
    · rename_i heq
      rw [Symbols.contains_eq, heq] at hcontains
      exact .inr ⟨by simpa using hcontains, rfl⟩
    · exact .inl rfl

/-- The statement of an operation makes its temporary a variable. -/
theorem statement_temporary {n : Nat} {rest : List Char}
    (hfree : Free c.symbols (temporaryName n)) :
    statement (temporary n ++ '=' :: rest) c = emit
      (·.assignment (temporaryName n) ⟨Text.utf8Length (temporary n), '=' :: rest⟩)
      (noted c (temporaryName n)) := by
  have hw : ∀ d ∈ temporary n, ('%' :: headStop).contains d = false := fun d hd =>
    contains_of_isOrdinary ((isWord_temporary n).2 d hd) (by decide)
  have hhead : ∀ d ∈ (temporary n ++ '=' :: rest).head?, blanks.contains d = false :=
    (isWord_temporary n).head_contains (by decide)
  have hrest : ∀ d ∈ ('=' :: rest).head?, ('%' :: headStop).contains d = true := by
    intro d hd
    obtain rfl := Option.some.inj hd
    decide
  have hnoted := get?_noted c hfree
  unfold noted at hnoted ⊢
  split
  · rename_i hcontains
    rw [if_pos hcontains] at hnoted
    exact statement_var (isWord_temporary n).1 hw hhead hrest hnoted
  · rename_i hcontains
    rw [if_neg hcontains] at hnoted
    unfold statement
    rw [head?_append (isWord_temporary n).1 hw hhead hrest, pure_bind]
    dsimp only
    have hset : onSymbols (·.set (temporaryName n) .var) c =
        .ok () { c with symbols := c.symbols.insert (temporaryName n) .var } :=
      onSymbols_eq_ok_iff.2 ⟨_, set_temporaryName c.symbols n, rfl⟩
    rw [show String.ofList (temporary n) = temporaryName n from rfl, get_bind,
      if_pos (by simp [hcontains, isAutoVariable_temporaryName])]
    show EStateM.bind (onSymbols _) _ c = _
    rw [EStateM.bind, hset]
    dsimp only
    rw [get_bind, hnoted]

end

/-! ## Trees -/

theorem Variable.mem_of_mem_head? (x : Variable) {cs : List Char} {c : Char}
    (hc : c ∈ (x.chars ++ cs).head?) : c ∈ x.chars := by
  cases hx : x.chars with
  | nil => exact absurd hx x.nonempty
  | cons d ds =>
    rw [hx] at hc
    obtain rfl := Option.some.inj hc
    exact List.mem_cons_self

/-- The name is a variable and fits the stream. -/
def Variable.Known (t : Symbols) (x : Variable) : Prop :=
  t.get? x.text = some .var ∧ Item.textFits x.text = true

namespace Tree

/-- The operand in the place of a tree. -/
def operand (n : Nat) : Tree → Operand
  | number d => .num d.value
  | var x _ => .var x.text
  | node .. => .var (temporaryName n)

/-- The instruction for an operation. -/
def instruction (n : Nat) (sign : Sign) (l r : Tree) : Instruction :=
  .assign .mov (temporaryName n)
    (.more (l.operand (n + 1)) sign.1.2 (.last (r.operand (n + 1 + l.pairs))))

/-- The instructions for the operations of a tree. -/
def code (n : Nat) : Tree → List Instruction
  | number _ | var .. => []
  | node sign l r =>
    l.code (n + 1) ++ (r.code (n + 1 + l.pairs) ++ [instruction n sign l r])

/-- The name in the place of a tree is that of a variable and fits the stream. -/
def SlotKnown (t : Symbols) (n : Nat) : Tree → Prop
  | number _ => True
  | var x _ => x.Known t
  | node .. => t.get? (temporaryName n) = some .var ∧ Item.textFits (temporaryName n) = true

variable {c c' : Compiler} {n : Nat}

theorem SlotKnown.mono {t : Tree} (h : t.SlotKnown c.symbols n) (k : Notes c c') :
    t.SlotKnown c'.symbols n := by
  cases t with
  | number d => trivial
  | var x _ => exact ⟨k.var h.1, h.2⟩
  | node sign l r => exact ⟨k.var h.1, h.2⟩

theorem SlotKnown.legible {t : Tree} (h : t.SlotKnown c.symbols n) : (t.operand n).Legible := by
  cases t with
  | number d => simp only [operand, Operand.Legible]
  | var x _ =>
    simp only [operand, Operand.Legible]
    exact h.2
  | node sign l r =>
    simp only [operand, Operand.Legible]
    exact h.2

theorem SlotKnown.reads {t : Tree} {ctx : Context} (h : t.SlotKnown ctx.symbols n) :
    Reads ctx (t.slot n) (t.operand n) := by
  cases t with
  | number d => exact reads_number d
  | var x hx =>
    exact reads_var x.nonempty hx.whole hx.unmarked hx.notDigits h.1 h.2
  | node sign l r =>
    refine Reads.blank (reads_var (isWord_temporary n).1 (fun c hc => ?_) ?_ ?_ h.1 h.2)
    · exact contains_of_isOrdinary ((isWord_temporary n).2 c hc) (by decide)
    · intro c hc
      obtain rfl := Option.some.inj hc
      decide
    · rfl

/-- The first character in the place of a tree is of no assigning operator. -/
theorem head_slot (t : Tree) (n : Nat) (cs : List Char) :
    ∀ c ∈ (t.slot n ++ cs).head?, assigning.contains c = false := by
  cases t with
  | number d => exact d.isWord.head_contains (by decide)
  | var x hx =>
    intro c hc
    exact contains_of_all (by decide) (hx.whole c (x.mem_of_mem_head? hc))
  | node sign l r =>
    intro c hc
    obtain rfl := Option.some.inj hc
    decide

end Tree

section
variable {c c' : Compiler} {n : Nat}

theorem writes_noted (c : Compiler) (name : String) : c.Writes [] (noted c name) := by
  unfold noted
  split
  · exact .refl c
  · exact .none rfl rfl

/-- The statement of an operation whose operands are known. -/
theorem statement_operation (sign : Sign) {l r : Tree}
    (hfree : Free c.symbols (temporaryName n)) (hn : n ≤ 65535)
    (hl : l.SlotKnown c.symbols (n + 1)) (hr : r.SlotKnown c.symbols (n + 1 + l.pairs)) :
    ∃ c', statement (temporary n ++ '=' :: Tree.operation n sign l r) c = .ok () c' ∧
      c.Writes (Plan.ofInstructions [Tree.instruction n sign l r]) c' ∧ Notes c c' ∧
      c'.symbols.get? (temporaryName n) = some .var := by
  have hfits := textFits_temporaryName hn
  have hnotes := notes_noted c (temporaryName n)
  have hl' : l.SlotKnown (noted c (temporaryName n)).context.symbols (n + 1) := hl.mono hnotes
  have hr' : r.SlotKnown (noted c (temporaryName n)).context.symbols (n + 1 + l.pairs) :=
    hr.mono hnotes
  have hskip : Scanner.skip blanks
      ⟨Text.utf8Length (temporary n), '=' :: Tree.operation n sign l r⟩ =
      ⟨Text.utf8Length (temporary n), '=' :: Tree.operation n sign l r⟩ :=
    Scanner.skip_of_head (by intro d hd; obtain rfl := Option.some.inj hd; decide)
  have hdraft := (assignment_mov_iff hskip (l.head_slot _ _)
    (fun offset => hl'.reads.operation hr'.reads sign true offset)).2 ⟨hfits, rfl⟩
  have hlegible : (Tree.instruction n sign l r).Legible := by
    refine ⟨hfits, ?_⟩
    simp only [Expression.Legible]
    exact ⟨ne_close sign, hl.legible, hr.legible⟩
  refine ⟨{ noted c (temporaryName n) with
    program := (noted c (temporaryName n)).program.writeAll (Tree.instruction n sign l r).items },
    ?_, ?_, ?_, ?_⟩
  · rw [statement_temporary hfree]
    exact emit_eq_ok_iff.2 ⟨_, hdraft, rfl⟩
  · exact (writes_noted c _).trans (writes_plain ⟨hlegible, rfl⟩)
  · exact hnotes.trans ⟨rfl, rfl, fun _ => .inl rfl⟩
  · exact get?_noted c hfree

end

theorem forM_append_eq_ok_iff {α : Type} {f : α → Compile Unit} {as bs : List α}
    {c c' : Compiler} :
    (as ++ bs).forM f c = .ok () c' ↔ ∃ d, as.forM f c = .ok () d ∧ bs.forM f d = .ok () c' := by
  rw [List.forM_eq_forM, List.forM_append, bind_eq_ok_iff]
  constructor
  · rintro ⟨_, d, ha, hb⟩
    exact ⟨d, ha, hb⟩
  · rintro ⟨d, ha, hb⟩
    exact ⟨(), d, ha, hb⟩

theorem forM_singleton_eq_ok_iff {α : Type} {f : α → Compile Unit} {a : α} {c c' : Compiler} :
    [a].forM f c = .ok () c' ↔ f a c = .ok () c' := by
  constructor
  · intro h
    obtain ⟨_, d, ha, hnil⟩ := bind_eq_ok_iff.1 h
    obtain ⟨_, rfl⟩ := pure_eq_ok_iff.1 hnil
    exact ha
  · intro ha
    exact bind_eq_ok_iff.2 ⟨(), c', ha, rfl⟩

theorem ofInstructions_append (is js : List Instruction) :
    Plan.ofInstructions (is ++ js) = Plan.ofInstructions is ++ Plan.ofInstructions js :=
  List.map_append

/-- The statements of a tree are compiled to its instructions.  By induction on the tree,
with the number of groups opened before it general. -/
theorem Tree.compiled (t : Tree) (n : Nat) {c : Compiler}
    (hvars : ∀ y ∈ t.vars, y.Known c.symbols)
    (hfree : ∀ i, n ≤ i → i < n + t.pairs → Free c.symbols (temporaryName i))
    (hn : n + t.pairs ≤ 65536) :
    ∃ c', (t.pieces n).forM statement c = .ok () c' ∧
      c.Writes (Plan.ofInstructions (t.code n)) c' ∧ Notes c c' ∧ t.SlotKnown c'.symbols n := by
  induction t generalizing n c with
  | number d => exact ⟨c, rfl, .refl c, .refl c, trivial⟩
  | var x hx => exact ⟨c, rfl, .refl c, .refl c, hvars x List.mem_cons_self⟩
  | node sign l r ihl ihr =>
    have hpairs : (node sign l r).pairs = 1 + l.pairs + r.pairs := rfl
    rw [hpairs] at hfree hn
    obtain ⟨hvarsl, hvarsr⟩ := List.forall_mem_append.1 hvars
    obtain ⟨c₁, hl, hwl, hnl, hslotl⟩ := ihl (n + 1) hvarsl
      (fun i _ _ => hfree i (by omega) (by omega)) (by omega)
    obtain ⟨c₂, hr, hwr, hnr, hslotr⟩ := ihr (n + 1 + l.pairs)
      (fun y hy => ⟨hnl.var (hvarsr y hy).1, (hvarsr y hy).2⟩)
      (fun i _ _ => hnl.free (hfree i (by omega) (by omega))) (by omega)
    have hslot := hnl.trans hnr |>.free (hfree n (by omega) (by omega))
    obtain ⟨c₃, hop, hwop, hnop, hvar⟩ :=
      statement_operation sign hslot (by omega) (hslotl.mono hnr) hslotr
    refine ⟨c₃, ?_, ?_, (hnl.trans hnr).trans hnop, hvar, textFits_temporaryName (by omega)⟩
    · exact forM_append_eq_ok_iff.2 ⟨c₁, hl, forM_append_eq_ok_iff.2
        ⟨c₂, hr, forM_singleton_eq_ok_iff.2 hop⟩⟩
    · rw [code, ofInstructions_append, ofInstructions_append]
      exact hwl.trans (hwr.trans hwop)

/-! ## Lines -/

/-- The instruction for the variable itself. -/
def lastInstruction (x : Variable) (t : Tree) : Instruction :=
  .assign .mov x.text (.last (t.operand 0))

/-- The instructions of the line that assigns a tree. -/
def lineCode (x : Variable) (t : Tree) : List Instruction :=
  t.code 0 ++ [lastInstruction x t]

/-- At the start of a statement the name is read as a whole. -/
def Variable.Leading (x : Variable) : Prop :=
  ∀ c ∈ x.chars, ('%' :: headStop).contains c = false

section
variable {c c' : Compiler} {x : Variable} {t : Tree}

theorem Variable.Leading.head_blanks (h : x.Leading) (cs : List Char) :
    ∀ c ∈ (x.chars ++ cs).head?, blanks.contains c = false :=
  fun c hc => contains_of_all (by decide) (h c (x.mem_of_mem_head? hc))

/-- The statement of the variable itself: its name must fit the stream. -/
theorem statement_last_iff (hlead : x.Leading) (hx : c.symbols.get? x.text = some .var)
    (ht : t.SlotKnown c.symbols 0) :
    statement (x.chars ++ ' ' :: '=' :: ' ' :: t.slot 0) c = .ok () c' ↔
      Item.textFits x.text = true ∧ c' = { c with
        program := c.program.writeAll (lastInstruction x t).items } := by
  have hstatement : statement (x.chars ++ ' ' :: '=' :: ' ' :: t.slot 0) c = _ :=
    statement_var x.nonempty hlead (hlead.head_blanks _)
      (by intro d hd; obtain rfl := Option.some.inj hd; decide) hx
  have ht' : t.SlotKnown c.context.symbols 0 := ht
  have hdraft : ∀ items, c.context.assignment x.text _ = ⟨items, .ok ()⟩ ↔ _ := fun items =>
    assignment_mov_iff (skip_assigning (c := '=') (by decide) (' ' :: t.slot 0)
      (Text.utf8Length x.chars)) (by intro d hd; obtain rfl := Option.some.inj hd; decide)
      (fun offset => ht'.reads.blank.expression true offset)
  rw [hstatement, emit_eq_ok_iff]
  constructor
  · rintro ⟨items, hitems, rfl⟩
    obtain ⟨hfits, rfl⟩ := (hdraft items).1 hitems
    exact ⟨hfits, rfl⟩
  · rintro ⟨hfits, rfl⟩
    exact ⟨_, (hdraft _).2 ⟨hfits, rfl⟩, rfl⟩

theorem opening_line (hstem : c.config.stem = "$") (hlead : x.Leading)
    (hx : c.symbols.get? x.text = some .var) :
    opening (assignmentLine x t) c =
      .ok (t.pieces 0 ++ [x.chars ++ ' ' :: '=' :: ' ' :: t.slot 0]) c := by
  have hhead : head? headStop (assignmentLine x t) = _ :=
    head?_append x.nonempty (fun d hd => contains_of_all (by decide) (hlead d hd))
      (hlead.head_blanks _) (by intro d hd; obtain rfl := Option.some.inj hd; decide)
  rw [opening_of_passes (congrFun hhead c) (.inl ⟨_, hx, nofun⟩), hstem, statements_line]
  rfl

/-- Whatever was compiled before it, a line that assigns a tree of known variables is
compiled, as long as the name of its own variable fits the stream and its temporaries
stand for nothing else than variables. -/
theorem line_compiled_iff (hstem : c.config.stem = "$") (hlead : x.Leading)
    (hx : c.symbols.get? x.text = some .var) (hvars : ∀ y ∈ t.vars, y.Known c.symbols)
    (hfree : ∀ i < t.pairs, Free c.symbols (temporaryName i)) (ht : t.pairs ≤ 65536) :
    ∃ d, Notes c d ∧ c.Writes (Plan.ofInstructions (t.code 0)) d ∧ t.SlotKnown d.symbols 0 ∧
      ∀ c', line (assignmentLine x t) c = .ok () c' ↔ Item.textFits x.text = true ∧
        c' = { d with program := d.program.writeAll (lastInstruction x t).items } := by
  obtain ⟨d, hpieces, hwrites, hnotes, hslot⟩ := t.compiled 0 hvars
    (fun i _ hi => hfree i (by omega)) (by omega)
  have hlast : ∀ c', statement _ d = .ok () c' ↔ _ := fun c' =>
    statement_last_iff hlead (hnotes.var hx) hslot
  refine ⟨d, hnotes, hwrites, hslot, fun c' => ⟨fun h => ?_, fun h => ?_⟩⟩
  · obtain ⟨statements, e, hopening, hrest⟩ := line_eq_ok h
    rw [opening_line hstem hlead hx] at hopening
    obtain ⟨rfl, rfl⟩ := EStateM.Result.ok.inj hopening
    obtain ⟨d', hpieces', hrest⟩ := forM_append_eq_ok_iff.1 hrest
    obtain rfl := (EStateM.Result.ok.inj (hpieces.symm.trans hpieces')).2
    exact (hlast c').1 (forM_singleton_eq_ok_iff.1 hrest)
  · exact line_eq_ok_iff.2 ⟨_, c, opening_line hstem hlead hx, forM_append_eq_ok_iff.2
      ⟨d, hpieces, forM_singleton_eq_ok_iff.2 ((hlast c').2 h)⟩⟩

theorem line_compiled (hstem : c.config.stem = "$") (hlead : x.Leading) (hx : x.Known c.symbols)
    (hvars : ∀ y ∈ t.vars, y.Known c.symbols)
    (hfree : ∀ i < t.pairs, Free c.symbols (temporaryName i)) (ht : t.pairs ≤ 65536) :
    ∃ c', line (assignmentLine x t) c = .ok () c' ∧ Notes c c' ∧
      c.Writes (Plan.ofInstructions (lineCode x t)) c' := by
  obtain ⟨d, hnotes, hwrites, hslot, hline⟩ := line_compiled_iff hstem hlead hx.1 hvars hfree ht
  have hlegible : (lastInstruction x t).Legible := by
    refine ⟨hx.2, ?_⟩
    simp only [Expression.Legible]
    exact hslot.legible
  refine ⟨_, (hline _).2 ⟨hx.2, rfl⟩, hnotes.trans ⟨rfl, rfl, fun _ => .inl rfl⟩, ?_⟩
  rw [lineCode, ofInstructions_append]
  exact hwrites.trans (writes_plain ⟨hlegible, rfl⟩)

end

end Grouped

end ScriptMachine
