/-
  ScriptMachine.Proofs.Structured.Literals

  String literals reach the program as they are written.  Comments, groups, the words
  of a line and the texts of the stream are told apart by four readers; each of them
  leaves the inside of a literal alone, so that a sum of literals is the literals one
  behind the other (`literals_verbatim`).
-/

import ScriptMachine.Proofs.Reduction
import ScriptMachine.Proofs.Structured.Refinement

namespace ScriptMachine

/-! ## Sums of texts -/

/-- Texts are added by writing them one behind the other. -/
theorem Value.reduceLeft_texts (s : String) {operators : List Operator}
    (hops : ∀ o ∈ operators, o = .add) {texts : List String}
    (hlen : texts.length = operators.length) :
    reduceLeft (.str s) (operators.zip (texts.map .str)) = .ok (.str (s ++ String.join texts)) := by
  induction operators generalizing s texts with
  | nil =>
    obtain rfl := List.length_eq_zero_iff.1 hlen
    rw [String.join_nil, String.append_empty]
    rfl
  | cons o operators ih =>
    cases texts with
    | nil => cases hlen
    | cons t texts =>
      obtain ⟨ho, hrest⟩ := List.forall_mem_cons.1 hops
      have hsum : apply o (.str s) (.str t) = .ok (.str (s ++ t)) := by
        rw [ho]
        rfl
      rw [List.map_cons, List.zip_cons_cons, reduceLeft_cons, hsum, String.join_cons,
        ← String.append_assoc]
      exact ih (s ++ t) hrest (Nat.succ.inj hlen)

namespace Structured

open Compile

/-! ## The script -/

/-- The script that adds up literals. -/
def literalScript (texts : List String) : String :=
  "var x = " ++ " + ".intercalate (texts.map fun s => "\"" ++ s ++ "\"")

/-- The sign of a sum. -/
def plus : Sign :=
  ⟨(['+'], .add), by decide⟩

/-- The sum of literals. -/
def sumOf (first : Quoted) : List Quoted → Expr
  | [] => .last (.text first)
  | next :: rest => .more (.text first) plus (sumOf next rest)

/-- The name `x`. -/
def nameX : Name :=
  .ofLetter 'x' (by decide) (by decide +kernel)

/-- The script as a statement. -/
def sumScript (first : Quoted) (rest : List Quoted) : Block :=
  .cons (.declare nameX (some (.store .mov (sumOf first rest)))) .nil

/-- Texts on one line, without quotes and shorter than 250 bytes, are insides of
literals. -/
theorem exists_quoted {texts : List String} (hne : texts ≠ [])
    (h : ∀ s ∈ texts, s.utf8ByteSize < 250 ∧ ∀ c ∈ s.toList, c ≠ '"' ∧ c ≠ '\n' ∧ c ≠ '\r') :
    ∃ first rest, texts = (first :: rest).map Quoted.text := by
  have hall : ∀ s ∈ texts, ∃ q : Quoted, q.text = s := by
    intro s hs
    obtain ⟨hshort, hinside⟩ := h s hs
    rw [← Text.utf8Length_toList] at hshort
    exact ⟨⟨s.toList, hinside, hshort⟩, String.ofList_toList⟩
  have hrange : texts ∈ Set.range (List.map Quoted.text) := by
    rw [Set.range_list_map]
    exact hall
  obtain ⟨qs, hqs⟩ := hrange
  cases qs with
  | nil => exact absurd hqs.symm hne
  | cons first rest => exact ⟨first, rest, hqs.symm⟩

theorem chars_sumOf (first : Quoted) (rest : List Quoted) :
    (sumOf first rest).chars = (" + ".intercalate
      (((first :: rest).map Quoted.text).map fun s => "\"" ++ s ++ "\"")).toList := by
  induction rest generalizing first with
  | nil => simp [sumOf, Expr.chars, Term.chars, Quoted.text]
  | cons next rest ih =>
    simp [sumOf, Expr.chars, Term.chars, Quoted.text, ih, plus]

theorem declared_sumOf (known : List String) (first : Quoted) (rest : List Quoted) :
    (sumOf first rest).declared known = true := by
  induction rest generalizing first with
  | nil => rfl
  | cons next rest ih => exact ih next

theorem operands_sumOf (s : Store) (first : Quoted) (rest : List Quoted) :
    (sumOf first rest).operands s = (first :: rest).map fun q => Value.str q.text := by
  induction rest generalizing first with
  | nil => rfl
  | cons next rest ih => exact congrArg (Value.str first.text :: ·) (ih next)

theorem operators_sumOf (first : Quoted) (rest : List Quoted) :
    (sumOf first rest).operators = List.replicate rest.length .add := by
  induction rest generalizing first with
  | nil => rfl
  | cons next rest ih => exact congrArg (Operator.add :: ·) (ih next)

/-- The value of a sum of literals: their texts, one behind the other. -/
theorem value_sumOf (s : Store) (first : Quoted) (rest : List Quoted) :
    (sumOf first rest).value s = .ok (.str (String.join ((first :: rest).map Quoted.text))) := by
  have hops : ∀ o ∈ (sumOf first rest).operators, o = .add := by
    intro o ho
    rw [operators_sumOf] at ho
    exact List.eq_of_mem_replicate ho
  have hplain : ∀ o ∈ (sumOf first rest).operators, o.isMultiplicative = false := by
    intro o ho
    rw [hops o ho]
    rfl
  have hlen : rest.length = (sumOf first rest).operators.length := by
    rw [operators_sumOf, List.length_replicate]
  have htexts : rest.map (fun q => Value.str q.text) = (rest.map Quoted.text).map .str := by
    rw [List.map_map]
    rfl
  rw [Expr.value, operands_sumOf, List.map_cons, htexts,
    Value.reduce_eq_reduceLeft (by simpa using hlen) hplain,
    Value.reduceLeft_texts _ hops (by simpa using hlen), List.map_cons, String.join_cons]

/-! ## Compiling and running it -/

/-- A line is a source of its own, without a line feed behind it. -/
theorem lines_of_isLine {line : List Char} (h : IsLine line) :
    Source.lines (String.ofList line) = [line] := by
  obtain ⟨front, c, hfront, _⟩ := h.2
  refine lines_of_splits ?_ (List.forall_mem_singleton.2 h)
  rw [String.toList_ofList]
  exact .last h.1.one_line (by simp [hfront])

/-- The line feed behind the last line makes no difference. -/
theorem lines_literalScript (first : Quoted) (rest : List Quoted) :
    Source.lines (literalScript ((first :: rest).map Quoted.text)) =
      Source.lines (sumScript first rest).source := by
  have hline : literalScript ((first :: rest).map Quoted.text) = String.ofList
      (headed .var (nameX.chars ++ ' ' :: Change.chars (.store .mov (sumOf first rest)))) := by
    rw [← String.toList_inj, String.toList_ofList, literalScript, String.toList_append,
      Change.chars, chars_sumOf]
    rfl
  rw [hline, lines_of_isLine (Block.isLine (b := sumScript first rest) _ List.mem_cons_self),
    Block.lines_source]
  rfl

/-- What the program of the script does. -/
theorem halts_sumScript {first : Quoted} {rest : List Quoted} {file : String} {p : Program}
    (hp : compile file (sumScript first rest).source = .ok p) {σ : Type} (host : Host σ)
    (m : Machine) (w : σ) (lock : Bool) :
    ∃ m' s, Machine.start p.code 0 lock m = .ok () m' ∧ Exec.Halts host (m', w) s ∧
      s.fetch "x" = .str (String.join ((first :: rest).map Quoted.text)) := by
  obtain ⟨finish, hat, hstop, hlen⟩ := Block.at_of_compile hp
  obtain ⟨q, hassign, hq⟩ := hat
  obtain rfl : finish = q := hq
  have hvalue : (sumOf first rest).tree.eval host .run (.initial, w) =
      .ok (.str (String.join ((first :: rest).map Quoted.text))) (.initial, w) := by
    rw [Expr.eval_tree, value_sumOf]
  obtain ⟨s, hs⟩ : ∃ s, Store.initial.store "x"
      (.str (String.join ((first :: rest).map Quoted.text))) = .ok s :=
    ⟨_, if_neg (by decide)⟩
  have hstep := Exec.steps_mov (m := { started m p.code with gotoLock := lock }) hassign rfl rfl
    hvalue hs
  refine ⟨_, s, start_eq_ok_of_lock (by omega) lock, ?_, ?_⟩
  · exact Exec.Goes.halts ⟨1, hstep⟩ (Exec.halts_of_stop hstop rfl)
  · rw [Store.fetch, Store.get?_store hs, if_pos rfl]
    rfl

/-- String literals reach the program as they are written.  For any texts on one line
without quotes and shorter than 250 bytes, whatever else they hold, the script that adds
up their literals is accepted; run from address 0, with jumps on or off, it halts, and
its variable holds the texts one behind the other. -/
theorem literals_verbatim (texts : List String) (hne : texts ≠ [])
    (h : ∀ s ∈ texts, s.utf8ByteSize < 250 ∧ ∀ c ∈ s.toList, c ≠ '"' ∧ c ≠ '\n' ∧ c ≠ '\r')
    (file : String) :
    ∃ p, compile file (literalScript texts) = .ok p ∧
      ∀ {σ : Type} (host : Host σ) (m : Machine) (w : σ) (lock : Bool),
        ∃ m' s, Machine.start p.code 0 lock m = .ok () m' ∧ Exec.Halts host (m', w) s ∧
          s.fetch "x" = .str (String.join texts) := by
  obtain ⟨first, rest, rfl⟩ := exists_quoted hne h
  have hacceptable : (sumScript first rest).Acceptable [] false := by
    refine ⟨rfl, rfl, ?_, Nat.zero_le _, ?_⟩
    · exact Bool.and_eq_true_iff.2 ⟨declared_sumOf _ first rest, rfl⟩
    · intro x hx
      obtain rfl := List.mem_singleton.1 hx
      decide +kernel
  obtain ⟨p, hp⟩ := Block.compiles hacceptable (Nat.zero_le _) (Nat.zero_le _) file
  refine ⟨p, ?_, fun host m w lock => halts_sumScript hp host m w lock⟩
  rw [compile_eq_ok_iff, lines_literalScript]
  exact compile_eq_ok_iff.1 hp

/-- Literals with comment marks, parentheses, marks of constants, operators, blanks at
both ends and characters of several bytes. -/
theorem awkward_literals_verbatim :
    ∃ p, compile "" (literalScript ["// no /* comment", " (#a#) + b ", "*/ [ß, 語] \t"]) = .ok p ∧
      ∀ {σ : Type} (host : Host σ) (m : Machine) (w : σ) (lock : Bool),
        ∃ m' s, Machine.start p.code 0 lock m = .ok () m' ∧ Exec.Halts host (m', w) s ∧
          s.fetch "x" =
            .str (String.join ["// no /* comment", " (#a#) + b ", "*/ [ß, 語] \t"]) := by
  have hshort : ∀ s ∈ ["// no /* comment", " (#a#) + b ", "*/ [ß, 語] \t"],
      s.utf8ByteSize < 250 := by
    decide
  have hinside : ∀ s ∈ ["// no /* comment", " (#a#) + b ", "*/ [ß, 語] \t"],
      ∀ c ∈ s.toList, c ≠ '"' ∧ c ≠ '\n' ∧ c ≠ '\r' := by
    simp
  exact literals_verbatim _ (by decide) (fun s hs => ⟨hshort s hs, hinside s hs⟩) ""

end Structured

end ScriptMachine
