/-
  ScriptMachine.Proofs.Emission

  Expressions are written whole.  A draft of an expression that succeeds has
  written exactly the items of one legible expression, or nothing where no
  expression was found (`Context.wrote_expression`); a draft of a call has written
  exactly the items of a call, with the arguments that the shape of the function asks
  for.  From this follows what every other draft of the compiler writes.
-/

import ScriptMachine.Compiler.Expression
import ScriptMachine.Proofs.Calls
import ScriptMachine.Proofs.Encoding

namespace ScriptMachine

namespace Draft

variable {α β : Type}

/-- A draft that goes on succeeds in both parts. -/
theorem of_bind_eq_ok {d : Draft α} {f : α → Draft β} {items : List Item} {b : β}
    (h : d >>= f = ⟨items, .ok b⟩) :
    ∃ a is js, d = ⟨is, .ok a⟩ ∧ f a = ⟨js, .ok b⟩ ∧ items = is ++ js := by
  obtain ⟨is, outcome⟩ := d
  cases outcome with
  | error e =>
    rw [bind_of_error rfl, Draft.mk.injEq] at h
    cases h.2
  | ok a =>
    rw [bind_of_ok rfl, Draft.mk.injEq] at h
    exact ⟨a, is, (f a).items, rfl, by rw [← h.2], h.1.symm⟩

theorem of_map_eq_ok {d : Draft α} {f : α → β} {items : List Item} {b : β}
    (h : f <$> d = ⟨items, .ok b⟩) : ∃ a, d = ⟨items, .ok a⟩ ∧ b = f a := by
  obtain ⟨is, outcome⟩ := d
  cases outcome with
  | error e => cases h
  | ok a =>
    cases h
    exact ⟨a, rfl, rfl⟩

theorem of_put_eq_ok {i : Item} {items : List Item} (h : put i = ⟨items, .ok ()⟩) :
    items = [i] ∧ i.check = .ok () := by
  rw [put, Draft.mk.injEq] at h
  exact ⟨h.1.symm, h.2⟩

/-- A draft that first writes one item. -/
theorem of_put_bind_eq_ok {i : Item} {f : Unit → Draft β} {items : List Item} {b : β}
    (h : put i >>= f = ⟨items, .ok b⟩) :
    ∃ js, i.check = .ok () ∧ f () = ⟨js, .ok b⟩ ∧ items = i :: js := by
  obtain ⟨_, is, js, hput, hf, rfl⟩ := of_bind_eq_ok h
  obtain ⟨rfl, hi⟩ := of_put_eq_ok hput
  exact ⟨js, hi, hf, rfl⟩

/-- A draft that first writes one item, exactly. -/
theorem put_bind_eq_ok_iff {i : Item} {f : Unit → Draft β} {items : List Item} {b : β} :
    put i >>= f = ⟨items, .ok b⟩ ↔ i.check = .ok () ∧ ∃ js, f () = ⟨js, .ok b⟩ ∧ items = i :: js := by
  constructor
  · intro h
    obtain ⟨js, hi, hf, rfl⟩ := of_put_bind_eq_ok h
    exact ⟨hi, js, hf, rfl⟩
  · rintro ⟨hi, js, hf, rfl⟩
    have hput : (put i).outcome = .ok () := hi
    rw [bind_of_ok hput, hf]
    rfl

theorem of_ofExcept_eq_ok {x : Except Error α} {items : List Item} {a : α}
    (h : ofExcept x = ⟨items, .ok a⟩) : items = [] ∧ x = .ok a := by
  rw [ofExcept, Draft.mk.injEq] at h
  exact ⟨h.1.symm, h.2⟩

theorem of_pure_eq_ok {a b : α} {items : List Item} (h : (pure a : Draft α) = ⟨items, .ok b⟩) :
    items = [] ∧ b = a := by
  cases h
  exact ⟨rfl, rfl⟩

theorem fail_ne_ok {e : Error} {items : List Item} {a : α} : fail e ≠ ⟨items, .ok a⟩ :=
  fun h => by cases h

end Draft

/-- A text that was written fits its length field. -/
theorem Item.textFits_of_check_str {s : String} (h : (Item.str s).check = .ok ()) :
    Item.textFits s = true := by
  simp only [Item.check] at h
  split at h
  · assumption
  · cases h

theorem Item.textFits_of_check_var {s : String} (h : (Item.var s).check = .ok ()) :
    Item.textFits s = true :=
  Item.textFits_of_check_str h

theorem Item.check_var_iff {s : String} : (Item.var s).check = .ok () ↔ Item.textFits s = true := by
  refine ⟨Item.textFits_of_check_var, fun h => ?_⟩
  simp only [Item.check, h, if_true]

/-- All functions of the table belong to the set. -/
def Symbols.Within (t : Symbols) (D : Signatures) : Prop :=
  ∀ name code params, t.get? name = some (.function code params) → D code params

theorem Symbols.get?_foldl_insert (ws : List Word) (t : Symbols) (name : String) :
    (Symbols.mk (ws.foldl (fun map w => map.insert w.spelling (.command w)) t.map)).get? name =
      ((ws.reverse.find? (·.spelling == name)).map Symbol.command).or (t.get? name) := by
  induction ws generalizing t with
  | nil => rfl
  | cons w ws ih =>
    have hinsert := ih (t.insert w.spelling (.command w))
    rw [Symbols.get?_insert] at hinsert
    rw [List.foldl_cons, List.reverse_cons, List.find?_append]
    refine hinsert.trans ?_
    cases ws.reverse.find? (·.spelling == name) with
    | some v => rfl
    | none => by_cases hw : w.spelling = name <;> simp [hw]

/-- At first a name has a symbol only when it is reserved, and then that of its
word. -/
theorem Symbols.get?_initial_eq_some {name : String} {s : Symbol}
    (h : Symbols.initial.get? name = some s) : ∃ w : Word, w.spelling = name ∧ s = .command w := by
  have hfold := Symbols.get?_foldl_insert Word.all ⟨∅⟩ name
  rw [show (⟨∅⟩ : Symbols).get? name = none from Std.TreeMap.getElem?_emptyc, Option.or_none]
    at hfold
  rw [Symbols.initial, hfold] at h
  obtain ⟨w, hw, rfl⟩ := Option.map_eq_some_iff.1 h
  exact ⟨w, by simpa using List.find?_some hw, rfl⟩

/-- The reserved words are no functions. -/
theorem Symbols.within_initial (D : Signatures) : Symbols.initial.Within D := by
  intro name code params h
  obtain ⟨w, _, hw⟩ := Symbols.get?_initial_eq_some h
  cases hw

namespace Context

variable {D : Signatures}

/-! ## Operands without calls -/

/-- A draft of an operand has written one, with calls of functions of the set. -/
def WritesOperand (D : Signatures) (items : List Item) : Prop :=
  ∃ o : Operand, o.Legible ∧ (∀ x ∈ o.calls, D.Allow x) ∧ items = o.items

theorem writesOperand_constant {c : Constant} {items : List Item}
    (h : c.draft = ⟨items, .ok ()⟩) : WritesOperand D items := by
  cases c with
  | number n =>
    obtain ⟨rfl, _⟩ := Draft.of_put_eq_ok h
    exact ⟨.num n, trivial, by simp [Operand.calls], rfl⟩
  | text s =>
    obtain ⟨rfl, hs⟩ := Draft.of_put_eq_ok h
    exact ⟨.str s, Item.textFits_of_check_str hs, by simp [Operand.calls], rfl⟩

theorem writesOperand_digits {word : List Char} {a b : Nat} {items : List Item}
    (h : digits word a b = ⟨items, .ok ()⟩) : WritesOperand D items := by
  unfold digits at h
  split at h
  · obtain ⟨rfl, _⟩ := Draft.of_put_eq_ok h
    exact ⟨.num _, trivial, by simp [Operand.calls], rfl⟩
  · exact absurd h Draft.fail_ne_ok

/-- The outcome of reading an operand or an expression that may be missing: it
was found and `items` are written, or it was missing where it may be. -/
inductive Wrote (Writes : List Item → Prop) (first : Bool) {s : Scanner} :
    List Item → s.Optional → Prop
  | found {items : List Item} (t : Scanner) (h : t.rest.length < s.rest.length) :
      Writes items → Wrote Writes first items (.found t h)
  | absent (t : Scanner) (h : t.rest.length ≤ s.rest.length) :
      first = true → Wrote Writes first [] (.absent t h)

theorem wrote_literal {ctx : Context} {first : Bool} {s : Scanner} {items : List Item}
    {r : s.Optional} (h : ctx.literal s = ⟨items, .ok r⟩) :
    Wrote (WritesOperand D) first items r := by
  unfold literal at h
  split at h
  · exact absurd h Draft.fail_ne_ok
  · dsimp only at h
    split at h
    · exact absurd h Draft.fail_ne_ok
    · obtain ⟨js, hs, hret, rfl⟩ := Draft.of_put_bind_eq_ok h
      obtain ⟨rfl, rfl⟩ := Draft.of_pure_eq_ok hret
      exact .found _ _ ⟨.str _, Item.textFits_of_check_str hs, by simp [Operand.calls], rfl⟩

theorem wrote_markedConstant {ctx : Context} {first : Bool} {s : Scanner} {items : List Item}
    {r : s.Optional} (h : ctx.markedConstant s = ⟨items, .ok r⟩) :
    Wrote (WritesOperand D) first items r := by
  unfold markedConstant at h
  split at h
  · exact absurd h Draft.fail_ne_ok
  · split at h
    · obtain ⟨_, is, js, hc, hret, rfl⟩ := Draft.of_bind_eq_ok h
      obtain ⟨rfl, rfl⟩ := Draft.of_pure_eq_ok hret
      rw [List.append_nil]
      exact .found _ _ (writesOperand_constant hc)
    · exact absurd h Draft.fail_ne_ok

/-! ## Expressions and calls -/

/-- A draft of an expression has written one, with calls of functions of the set. -/
def WritesExpression (D : Signatures) (items : List Item) : Prop :=
  ∃ e : Expression, e.Legible ∧ (∀ x ∈ e.calls, D.Allow x) ∧ items = e.items

/-- A draft of arguments has written those that the shape asks for. -/
def WritesArgs (D : Signatures) (params : List Param) (items : List Item) : Prop :=
  ∃ as : Args, as.Legible ∧ as.Fits params ∧ (∀ x ∈ as.calls, D.Allow x) ∧ items = as.items

/-- No arguments are left to write. -/
theorem writesArgs_nil {params : List Param} (h : Args.Fits params .nil) :
    WritesArgs D params [.paramsEnd] :=
  ⟨.nil, trivial, h, by simp [Args.calls], rfl⟩

/-- A word that is skipped. -/
theorem WritesArgs.skip {params : List Param} {items : List Item} (h : WritesArgs D params items) :
    WritesArgs D (.skip :: params) items := by
  obtain ⟨as, has, hfits, hcalls, rfl⟩ := h
  exact ⟨as, has, .skip hfits, hcalls, rfl⟩

/-- One argument more, in a place where the shape asks for it. -/
theorem writesArgs_cons {p : Param} {params rest : List Param} {is js : List Item}
    (hp : p.isEmitted = true)
    (hfits : ∀ e as, Args.Fits rest as → Args.Fits params (.cons p e as))
    (hi : WritesExpression D is) (hj : WritesArgs D rest js) :
    WritesArgs D params (.param p :: (is ++ js)) := by
  obtain ⟨e, he, hcalls, rfl⟩ := hi
  obtain ⟨as, has, hf, hmore, rfl⟩ := hj
  exact ⟨.cons p e as, ⟨hp, he, has⟩, hfits e as hf, List.forall_mem_append.2 ⟨hcalls, hmore⟩, rfl⟩

/-- The arguments that an absent optional parameter ends: the null variable. -/
theorem writesArgs_null (rest : List Param) : WritesArgs D (.optional :: rest)
    [.param .optional, .var nullName, .operator .close, .paramsEnd] :=
  ⟨.cons .optional (.last (.var nullName)) .nil, ⟨rfl, rfl, trivial⟩, .null rest,
    by simp [Args.calls, Expression.calls, Operand.calls], rfl⟩

mutual

theorem wrote_expression (ctx : Context) (hD : ctx.symbols.Within D) (first : Bool) (s : Scanner)
    {items : List Item} {r : s.Optional} (h : ctx.expression first s = ⟨items, .ok r⟩) :
    Wrote (WritesExpression D) first items r := by
  rw [expression] at h
  obtain ⟨o, is, js, ho, hk, rfl⟩ := Draft.of_bind_eq_ok h
  have hskip : (s.skip (blanks ++ ['['])).rest.length ≤ s.rest.length :=
    Scanner.length_skip_le _ s
  have hwrote := wrote_operand ctx hD first _ ho
  cases hwrote with
  | absent t ht hfirst =>
    obtain ⟨rfl, rfl⟩ := Draft.of_pure_eq_ok hk
    exact .absent _ _ hfirst
  | found t ht hw =>
    obtain ⟨operand, hleg, hcalls, rfl⟩ := hw
    dsimp only at hk
    split at hk
    · -- no operator follows: the expression is closed
      obtain ⟨ks, _, hret, rfl⟩ := Draft.of_put_bind_eq_ok hk
      obtain ⟨rfl, rfl⟩ := Draft.of_pure_eq_ok hret
      exact .found _ _ ⟨.last operand, hleg, hcalls, rfl⟩
    · rename_i spelling w hop
      have hw := Scanner.length_operator_lt hop
      have hv := Scanner.length_skip_le (blanks ++ [',']) t
      split at hk
      · exact absurd hk Draft.fail_ne_ok
      · rename_i op hspell
        obtain ⟨ks, _, hrest, rfl⟩ := Draft.of_put_bind_eq_ok hk
        obtain ⟨r', hr', rfl⟩ := Draft.of_map_eq_ok hrest
        have hwrote := wrote_expression ctx hD false w hr'
        cases hwrote with
        | absent _ _ hfalse => cases hfalse
        | found u hu hw =>
          obtain ⟨rest, hrl, hmore, rfl⟩ := hw
          have hne : op ≠ .close := by
            rintro rfl
            exact Operator.ofSpelling?_ne_close spelling hspell
          exact .found _ _ ⟨.more operand op rest, ⟨hne, hleg, hrl⟩,
            List.forall_mem_append.2 ⟨hcalls, hmore⟩, rfl⟩
termination_by (s.rest.length, 1)
decreasing_by
  · exact lex_of_le hskip (by omega)
  · exact Prod.Lex.left _ _ (by omega)

theorem wrote_operand (ctx : Context) (hD : ctx.symbols.Within D) (first : Bool) (s : Scanner)
    {items : List Item} {r : s.Optional} (h : ctx.operand first s = ⟨items, .ok r⟩) :
    Wrote (WritesOperand D) first items r := by
  have hmissing : ∀ {items r}, (if first then (return .absent s (Nat.le_refl _) : Draft s.Optional)
      else .fail ((Error.of .missingOperand).inColumns s.offset (s.offset + 1))) =
        ⟨items, .ok r⟩ → Wrote (WritesOperand D) first items r := by
    intro items r h
    split at h
    · obtain ⟨rfl, rfl⟩ := Draft.of_pure_eq_ok h
      exact .absent _ _ (by assumption)
    · exact absurd h Draft.fail_ne_ok
  rw [operand] at h
  split at h
  · exact wrote_literal h
  · exact wrote_markedConstant h
  · dsimp only at h
    split at h
    · exact hmissing h
    · rename_i word t hw
      split at h
      · exact hmissing h
      · rename_i hne
        have hshort := Scanner.length_word_lt hw hne
        split at h
        · obtain ⟨_, is, js, hd, hret, rfl⟩ := Draft.of_bind_eq_ok h
          obtain ⟨rfl, rfl⟩ := Draft.of_pure_eq_ok hret
          rw [List.append_nil]
          exact .found _ _ (writesOperand_digits hd)
        · split at h
          · obtain ⟨js, hs, hret, rfl⟩ := Draft.of_put_bind_eq_ok h
            obtain ⟨rfl, rfl⟩ := Draft.of_pure_eq_ok hret
            exact .found _ _ ⟨.var _, Item.textFits_of_check_var hs, by simp [Operand.calls], rfl⟩
          · obtain ⟨_, is, js, hc, hret, rfl⟩ := Draft.of_bind_eq_ok h
            obtain ⟨rfl, rfl⟩ := Draft.of_pure_eq_ok hret
            rw [List.append_nil]
            exact .found _ _ (writesOperand_constant hc)
          · rename_i code params hfunction
            obtain ⟨js, _, hcall, rfl⟩ := Draft.of_put_bind_eq_ok h
            obtain ⟨u, hu, rfl⟩ := Draft.of_map_eq_ok hcall
            obtain ⟨as, has, hcalls, rfl⟩ := wrote_call ctx hD code params t hu (hD _ _ _ hfunction)
            exact .found _ _ ⟨.call code as, has, hcalls, rfl⟩
          · exact absurd h Draft.fail_ne_ok
          · exact absurd h Draft.fail_ne_ok
termination_by (s.rest.length, 0)
decreasing_by exact Prod.Lex.left _ _ hshort

theorem wrote_call (ctx : Context) (hD : ctx.symbols.Within D) (code : UInt16)
    (params : List Param) (s : Scanner) {items : List Item} {r : s.From}
    (h : ctx.call code params s = ⟨items, .ok r⟩) (hfunction : D code params) :
    ∃ as : Args, as.Legible ∧ (∀ x ∈ (Operand.call code as).calls, D.Allow x) ∧
      items = .code .func :: .func code :: as.items := by
  rw [call] at h
  obtain ⟨_, is, js, hmay, hcode, rfl⟩ := Draft.of_bind_eq_ok h
  obtain ⟨rfl, _⟩ := Draft.of_ofExcept_eq_ok hmay
  obtain ⟨ks, _, hfunc, rfl⟩ := Draft.of_put_bind_eq_ok hcode
  obtain ⟨ls, _, hargs, rfl⟩ := Draft.of_put_bind_eq_ok hfunc
  obtain ⟨as, has, hfits, hcalls, rfl⟩ := wrote_arguments ctx hD 1 params s hargs
  exact ⟨as, has, List.forall_mem_cons.2 ⟨⟨params, hfunction, hfits⟩, hcalls⟩, rfl⟩
termination_by (s.rest.length, 3 + params.length)
decreasing_by exact Prod.Lex.right _ (by omega)

theorem wrote_arguments (ctx : Context) (hD : ctx.symbols.Within D) (place : Nat)
    (params : List Param) (s : Scanner) {items : List Item} {r : s.From}
    (h : ctx.arguments place params s = ⟨items, .ok r⟩) : WritesArgs D params items := by
  -- the shape is kept by name: its length is part of the measure
  obtain ⟨shape, hshape⟩ : ∃ shape, params = shape := ⟨_, rfl⟩
  rw [hshape, arguments.eq_def] at h
  rw [hshape]
  split at h
  · obtain ⟨js, _, hret, rfl⟩ := Draft.of_put_bind_eq_ok h
    obtain ⟨rfl, _⟩ := Draft.of_pure_eq_ok hret
    exact writesArgs_nil .done
  · obtain ⟨js, _, hret, rfl⟩ := Draft.of_put_bind_eq_ok h
    obtain ⟨rfl, _⟩ := Draft.of_pure_eq_ok hret
    exact writesArgs_nil (.stop _)
  · rename_i rest
    have hskip : (s.skip blanks).rest.length ≤ s.rest.length := Scanner.length_skip_le _ s
    dsimp only at h
    split at h
    · obtain ⟨u, hu, _⟩ := Draft.of_map_eq_ok h
      exact (wrote_arguments ctx hD (place + 1) rest _ hu).skip
    · rename_i v hw
      have hv := Scanner.length_word_le hw
      obtain ⟨u, hu, _⟩ := Draft.of_map_eq_ok h
      exact (wrote_arguments ctx hD (place + 1) rest v hu).skip
  · rename_i rest
    obtain ⟨js, _, hk, rfl⟩ := Draft.of_put_bind_eq_ok h
    obtain ⟨o, is, ks, ho, hk, rfl⟩ := Draft.of_bind_eq_ok hk
    have hwrote := wrote_expression ctx hD true s ho
    cases hwrote with
    | absent t ht _ =>
      obtain ⟨_, _, hclose, rfl⟩ := Draft.of_put_bind_eq_ok hk
      obtain ⟨_, _, hend, rfl⟩ := Draft.of_put_bind_eq_ok hclose
      obtain ⟨_, _, hret, rfl⟩ := Draft.of_put_bind_eq_ok hend
      obtain ⟨rfl, _⟩ := Draft.of_pure_eq_ok hret
      exact writesArgs_null rest
    | found t ht hw =>
      obtain ⟨u, hu, _⟩ := Draft.of_map_eq_ok hk
      exact writesArgs_cons rfl (fun e _ hf => .another e hf) hw
        (wrote_arguments ctx hD place (.optional :: rest) t hu)
  · rename_i param rest hstop hskip hoptional
    obtain ⟨js, _, hk, rfl⟩ := Draft.of_put_bind_eq_ok h
    obtain ⟨o, is, ks, ho, hk, rfl⟩ := Draft.of_bind_eq_ok hk
    have hwrote := wrote_expression ctx hD true s ho
    cases hwrote with
    | absent t ht _ => exact absurd hk Draft.fail_ne_ok
    | found t ht hw =>
      obtain ⟨u, hu, _⟩ := Draft.of_map_eq_ok hk
      have hemit : param.isEmitted = true := by
        cases param <;> first | rfl | exact absurd rfl hstop | exact absurd rfl hskip
      have hasked : param ≠ .stop ∧ param ≠ .skip ∧ param ≠ .optional :=
        ⟨fun h => hstop h, fun h => hskip h, fun h => hoptional h⟩
      exact writesArgs_cons hemit (fun e _ hf => .required e hasked hf) hw
        (wrote_arguments ctx hD (place + 1) rest t hu)
termination_by (s.rest.length, 2 + params.length)
decreasing_by
  · exact lex_of_le hskip (by simp [hshape])
  · exact lex_of_le (by omega) (by simp [hshape])
  · exact Prod.Lex.right _ (by omega)
  · exact Prod.Lex.left _ _ ht
  · exact Prod.Lex.right _ (by omega)
  · exact Prod.Lex.left _ _ ht

end

/-- An expression that was found is written whole. -/
theorem writes_value {ctx : Context} (hD : ctx.symbols.Within D) {s t : Scanner}
    {items : List Item} {h : t.rest.length < s.rest.length}
    (hd : ctx.value s = ⟨items, .ok (.found t h)⟩) : WritesExpression D items := by
  cases wrote_expression ctx hD true s hd with
  | found _ _ hw => exact hw

/-- The condition of a jump: an opcode and a whole expression. -/
theorem writes_lastValue {ctx : Context} (hD : ctx.symbols.Within D) {opcode : Opcode}
    {missing : Cause} {s : Scanner} {items : List Item}
    (h : ctx.lastValue opcode missing s = ⟨items, .ok ()⟩) :
    ∃ e : Expression, e.Legible ∧ (∀ x ∈ e.calls, D.Allow x) ∧
      items = .code opcode :: e.items := by
  obtain ⟨js, _, hvalue, rfl⟩ := Draft.of_put_bind_eq_ok h
  obtain ⟨r, is, ks, hr, hend, rfl⟩ := Draft.of_bind_eq_ok hvalue
  cases r with
  | absent => exact absurd hend Draft.fail_ne_ok
  | found t ht =>
    obtain ⟨rfl, _⟩ := Draft.of_ofExcept_eq_ok hend
    obtain ⟨e, he, hcalls, rfl⟩ := writes_value hD hr
    exact ⟨e, he, hcalls, by rw [List.append_nil]⟩

/-- An assignment operator other than a step stores an expression. -/
theorem assignment_of_assignmentOpcode? {spelling : List Char} {opcode : Opcode}
    (h : assignmentOpcode? spelling = some opcode) (hstep : ¬ (opcode = .inc ∨ opcode = .dec)) :
    ∃ how : Assignment, opcode = how.opcode := by
  unfold assignmentOpcode? at h
  split at h <;> cases h
  case h_1 => exact ⟨.mov, rfl⟩
  case h_2 => exact ⟨.add, rfl⟩
  case h_3 => exact ⟨.sub, rfl⟩
  case h_4 => exact ⟨.mul, rfl⟩
  case h_5 => exact ⟨.div, rfl⟩
  case h_6 => exact ⟨.mod, rfl⟩
  case h_7 => exact absurd (.inl rfl) hstep
  case h_8 => exact absurd (.inr rfl) hstep

/-- An assignment writes nothing or one assigning instruction. -/
theorem writes_assignment {ctx : Context} (hD : ctx.symbols.Within D) {name : String}
    {s : Scanner} {items : List Item} (h : ctx.assignment name s = ⟨items, .ok ()⟩) :
    ∃ is : List Instruction, (∀ i ∈ is, i.Legible ∧ (∀ x ∈ i.calls, D.Allow x) ∧
      (i = .increment name ∨ i = .decrement name ∨ ∃ how e, i = .assign how name e)) ∧
      items = is.flatMap Instruction.items := by
  unfold assignment at h
  dsimp only at h
  split at h
  · obtain ⟨rfl, _⟩ := Draft.of_ofExcept_eq_ok h
    exact ⟨[], by simp, rfl⟩
  · split at h
    · exact absurd h Draft.fail_ne_ok
    · rename_i opcode hopcode
      obtain ⟨js, _, hvar, rfl⟩ := Draft.of_put_bind_eq_ok h
      obtain ⟨ks, hname, hrest, rfl⟩ := Draft.of_put_bind_eq_ok hvar
      have hfits := Item.textFits_of_check_var hname
      split at hrest
      · rename_i hstep
        obtain ⟨rfl, _⟩ := Draft.of_ofExcept_eq_ok hrest
        rcases hstep with rfl | rfl
        · exact ⟨[.increment name],
            by simpa [Instruction.Legible, Instruction.calls] using hfits, rfl⟩
        · exact ⟨[.decrement name],
            by simpa [Instruction.Legible, Instruction.calls] using hfits, rfl⟩
      · rename_i hstep
        obtain ⟨r, is, ls, hr, hend, rfl⟩ := Draft.of_bind_eq_ok hrest
        cases r with
        | absent => exact absurd hend Draft.fail_ne_ok
        | found t ht =>
          obtain ⟨rfl, _⟩ := Draft.of_ofExcept_eq_ok hend
          obtain ⟨e, he, hcalls, rfl⟩ := writes_value hD hr
          obtain ⟨how, rfl⟩ := assignment_of_assignmentOpcode? hopcode hstep
          refine ⟨[.assign how name e], ?_, ?_⟩
          · intro i hi
            obtain rfl := List.mem_singleton.1 hi
            exact ⟨⟨hfits, he⟩, hcalls, .inr (.inr ⟨how, e, rfl⟩)⟩
          · simp [Instruction.items]

end Context

end ScriptMachine
