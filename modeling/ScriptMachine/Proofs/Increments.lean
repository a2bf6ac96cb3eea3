/-
  ScriptMachine.Proofs.Increments

  Compiling a script in parts.  Where the first part ends with a line and outside block
  comments, the lines of the whole are those of its parts (`Source.lines_append`).  No step
  asks for the listing or the diagnostics, so what it does to the rest of the state is the
  same when only these differ (`Compile.compositionalAll_silent`); so is what the lines do
  when they are numbered from elsewhere (`Compile.alike_lines`).
-/

import ScriptMachine.Proofs.Comments.Places
import ScriptMachine.Proofs.Lasting

namespace ScriptMachine

-- ============================================================================
-- Sources in parts
-- ============================================================================

namespace Source

variable {cs more : List Char} {open_ last : Bool}

/-- What stands behind a terminator ends like the whole text. -/
theorem getLast?_behind {front : List Char} {c : Char}
    (h : front ++ c :: cs = [] ∨ (front ++ c :: cs).getLast? = some '\n') :
    cs = [] ∧ c = '\n' ∨ cs.getLast? = some '\n' := by
  have hlast := h.resolve_left (by simp)
  rw [List.getLast?_append_cons] at hlast
  cases cs with
  | nil => exact .inl ⟨rfl, by simpa using hlast⟩
  | cons d cs =>
    rw [List.getLast?_cons_cons] at hlast
    exact .inr hlast

theorem Splits.append {rows tail : List (List Char)} (h : Splits cs rows)
    (hend : cs = [] ∨ cs.getLast? = some '\n') (k : Splits more tail) :
    Splits (cs ++ more) (rows ++ tail) := by
  induction h with
  | nil => exact k
  | @last row hrow hne =>
    have hfeed : '\n' ∈ row := List.mem_of_getLast? (hend.resolve_left hne)
    exact absurd rfl (hrow '\n' hfeed).1
  | feed hrow _ ih =>
    rw [List.append_assoc]
    exact .feed hrow (ih ((getLast?_behind hend).imp_left And.left))
  | @returnFeed row cs rows hrow _ ih =>
    have hrest : row ++ '\r' :: '\n' :: cs = (row ++ ['\r']) ++ '\n' :: cs := by simp
    rw [hrest] at hend
    rw [List.append_assoc]
    exact .returnFeed hrow (ih ((getLast?_behind hend).imp_left And.left))
  | @carriage row cs rows hrow hcs _ ih =>
    have hlast : cs.getLast? = some '\n' :=
      (getLast?_behind hend).resolve_left fun h => absurd h.2 (by decide)
    have hhead : (cs ++ more).head? ≠ some '\n' := by
      cases cs with
      | nil => cases hlast
      | cons d cs => exact hcs
    rw [List.append_assoc]
    exact .carriage hrow hhead (ih (.inr hlast))

theorem ReadsAll.append {inComment : Bool} {rows tail : List Row}
    (h : ReadsAll inComment rows open_) (k : ReadsAll open_ tail last) :
    ReadsAll inComment (rows ++ tail) last := by
  induction h with
  | nil => exact k
  | cons hrow _ ih => exact .cons hrow (ih k)

/-- Whether a block comment is open at the end is told row by row. -/
theorem ReadsAll.open_eq {inComment : Bool} {rows : List Row} (h : ReadsAll inComment rows open_) :
    open_ = (rows.map Row.raw).foldl (fun open_ raw => (cleanLine open_ raw).2) inComment := by
  induction h with
  | nil => rfl
  | cons hrow _ ih => rw [ih, List.map_cons, List.foldl_cons, hrow.cleanLine]

/-- The source ends inside a block comment. -/
def EndsInComment (source : String) : Prop :=
  ∃ rows, IsReading source.toList rows true

theorem not_endsInComment {source : String}
    (h : (split source.toList).foldl (fun open_ raw => (cleanLine open_ raw).2) false = false) :
    ¬ EndsInComment source := by
  rintro ⟨rows, hsplits, hreads⟩
  rw [hsplits.eq_split, ← hreads.open_eq] at h
  cases h

/-- The lines of a source in two parts, the first of them whole lines. -/
theorem lines_append {first second : String}
    (hend : first = "" ∨ first.toList.getLast? = some '\n') (hclosed : ¬ EndsInComment first) :
    lines (first ++ second) = lines first ++ lines second := by
  obtain ⟨rows, open_, h⟩ := exists_isReading first.toList
  obtain ⟨tail, last, k⟩ := exists_isReading second.toList
  obtain rfl : open_ = false := by
    cases open_ with
    | false => rfl
    | true => exact absurd ⟨rows, h⟩ hclosed
  have hall : IsReading (first ++ second).toList (rows ++ tail) last := by
    refine ⟨?_, h.reads.append k.reads⟩
    rw [String.toList_append, List.map_append]
    exact h.splits.append (hend.imp_left fun hempty => by rw [hempty]; rfl) k.splits
  rw [h.lines, k.lines, hall.lines, List.map_append]

end Source

/-- The number of a line changes nothing else in an error. -/
theorem Error.placed_eq (e : Error) (m n : Nat) {file text : String} :
    ((e.inFile file).onLine (some n)).withText text =
      { ((e.inFile file).onLine (some m)).withText text with line := e.line.or (some n) } := by
  unfold Error.withText Error.onLine Error.inFile
  dsimp only
  split <;> rfl

namespace Compile

variable {α : Type}

-- ============================================================================
-- Steps and the listing
-- ============================================================================

/-- The end of a step without the listing and the words of the diagnostics. -/
def silent : EStateM.Result Error Compiler α → EStateM.Result Error Compiler α
  | .ok a c => .ok a c.silent
  | .error e c => .error e c.silent

theorem silent_writeAll (items : List Item) (p : Program) :
    ({ p with listing := { enabled := false } } : Program).writeAll items =
      { p.writeAll items with listing := { enabled := false } } := by
  induction items generalizing p with
  | nil => rfl
  | cons i items ih => exact ih (p.write i)

/-- The stacks are neither listed nor reported. -/
theorem onStack_silent {α β : Type} {stack : Compiler → Stack β}
    {put : Compiler → Stack β → Compiler} (hstack : ∀ c, stack c.silent = stack c)
    (hput : ∀ c s, put c.silent s = (put c s).silent) (x : EStateM Error (Stack β) α)
    (c : Compiler) : onStack stack put x c.silent = silent (onStack stack put x c) := by
  unfold onStack
  rw [hstack]
  cases x (stack c) with
  | ok a s => exact congrArg (EStateM.Result.ok a) (hput c s)
  | error e s => exact congrArg (EStateM.Result.error e) (hput c s)

/-- No step asks for the listing or the diagnostics. -/
theorem compositionalAll_silent : CompositionalAll fun _ x c => x c.silent = silent (x c) where
  of_pure _ _ := rfl
  of_throw _ _ := rfl
  of_bind {α β x f c} hx hf := by
    simp only [bind, EStateM.bind, hx]
    cases hc : x c with
    | ok a d => exact hf a d hc
    | error e d => rfl
  of_get {β f c} hf h := by
    show f c.silent c.silent = silent (f c c)
    rw [hf c, h]
  of_ask {α f} hf c := by
    unfold ask
    rw [hf c]
    cases f c <;> rfl
  of_modify {f} h c := congrArg (EStateM.Result.ok ()) (h.silent c)
  of_emit f c := by
    have hcontext : c.silent.context = c.context := rfl
    have hwritten : ({ c.silent with
        program := c.silent.program.writeAll (f c.context).items } : Compiler) =
        ({ c with program := c.program.writeAll (f c.context).items } : Compiler).silent :=
      congrArg (fun program => { c.silent with program }) (silent_writeAll _ c.program)
    unfold emit
    rw [hcontext]
    dsimp only
    rw [hwritten]
    cases (f c.context).outcome <;> rfl
  of_comment _ _ := rfl
  of_jumpTo _ _ := rfl
  of_onSymbols {f c} _ := by
    simp only [onSymbols, Compiler.silent]
    cases f c.symbols <;> rfl
  of_onSwitchEnds x c := onStack_silent (fun _ => rfl) (fun _ _ => rfl) x c
  of_onWhileEnds x c := onStack_silent (fun _ => rfl) (fun _ _ => rfl) x c
  of_push word c := onStack_silent (fun _ => rfl) (fun _ _ => rfl) (Stack.push word) c
  of_onBlocks word f c := by
    simp only [onBlocks, Compiler.silent, Program.position]
    cases f c.blocks c.program.code.size <;> rfl
  of_onStructures x c := onStack_silent (fun _ => rfl) (fun _ _ => rfl) x c
  of_inFragment {α x c} text h := by
    unfold inFragment
    rw [h]
    cases x c <;> rfl

/-- A line ends alike in states that differ in nothing but the listing and the words of the
diagnostics. -/
theorem silent_line (text : List Char) {c d : Compiler} (h : d.silent = c.silent) :
    silent (line text d) = silent (line text c) := by
  have hline : ∀ c : Compiler, line text c.silent = silent (line text c) :=
    compositionalAll_silent.line (fun _ _ => rfl) text
  rw [← hline d, h, hline c]

-- ============================================================================
-- Numbers of lines
-- ============================================================================

/-- Two runs end alike: both well, or both with errors that are the same but for the number
of the line; in states that differ in nothing but the listing and the words of the
diagnostics. -/
inductive Alike : EStateM.Result Error Compiler Unit → EStateM.Result Error Compiler Unit → Prop
  where
  | ok {c d : Compiler} (h : c.silent = d.silent) : Alike (.ok () c) (.ok () d)
  | error {e : Error} {c d : Compiler} (line : Option Nat) (h : c.silent = d.silent) :
    Alike (.error e c) (.error { e with line } d)

theorem Alike.refl (r : EStateM.Result Error Compiler Unit) : Alike r r := by
  cases r with
  | ok _ c => exact .ok rfl
  | error e c => exact .error e.line rfl

theorem silent_report (c : Compiler) (e : Error) :
    (report c e).silent = { c.silent with diagnostics := c.silent.diagnostics.push "" } := by
  simp [report, Compiler.silent]

theorem alike_onLine {file : String} {m n : Nat} {text : List Char} {c d : Compiler}
    (h : c.silent = d.silent) :
    Alike (onLine file m text (line text) c) (onLine file n text (line text) d) := by
  have hline := silent_line text h
  unfold onLine reporting
  cases hc : line text c with
  | ok _ c' =>
    cases hd : line text d with
    | ok _ d' =>
      rw [hc, hd] at hline
      exact .ok (by simpa [silent] using hline)
    | error f d' => simp [hc, hd, silent] at hline
  | error e c' =>
    cases hd : line text d with
    | ok _ d' => simp [hc, hd, silent] at hline
    | error f d' =>
      rw [hc, hd] at hline
      obtain ⟨rfl, hsilent⟩ : e = f ∧ c'.silent = d'.silent := by simpa [silent] using hline
      dsimp only
      rw [Error.placed_eq e m n]
      exact .error _ (by rw [silent_report, silent_report, hsilent])

/-- Two steps in a row end alike when both do. -/
theorem Alike.bind {x y : Compile Unit} {f g : Unit → Compile Unit} {c d : Compiler}
    (h : Alike (x c) (y d)) (k : ∀ c' d', c'.silent = d'.silent → x c = .ok () c' →
      y d = .ok () d' → Alike (f () c') (g () d')) : Alike ((x >>= f) c) ((y >>= g) d) := by
  simp only [Bind.bind, EStateM.bind]
  cases hx : x c <;> cases hy : y d <;> rw [hx, hy] at h
  all_goals cases h
  · rename_i h
    exact k _ _ h hx hy
  · rename_i line h
    exact .error line h

/-- The same lines with other numbers end alike. -/
theorem alike_lines (file : String) (m n : Nat) (texts : List (List Char)) {c d : Compiler}
    (h : c.silent = d.silent) : Alike (lines file m texts c) (lines file n texts d) := by
  induction texts generalizing m n c d with
  | nil => exact .ok h
  | cons text rest ih => exact (alike_onLine h).bind fun _ _ hrest _ _ => ih _ _ hrest

theorem lines_append (file : String) (number : Nat) (front back : List (List Char)) :
    lines file number (front ++ back) = (do
      lines file number front
      lines file (number + front.length) back) := by
  induction front generalizing number with
  | nil => rfl
  | cons text front ih =>
    rw [List.cons_append, lines, ih, lines, bind_assoc, List.length_cons, Nat.add_right_comm,
      Nat.add_assoc]

/-- Compilation is incremental.  In whatever state a compile run is, a script whose first
part is empty or ends with a line feed, outside block comments, ends as its parts do when
they are compiled one after the other: well, or with the same error, but for the number of
its line; and it leaves the same state but for the listing and the words of the
diagnostics. -/
theorem script_append (file : String) {first second : String} (c : Compiler)
    (hend : first = "" ∨ first.toList.getLast? = some '\n')
    (hclosed : ¬ Source.EndsInComment first) :
    Alike (script file (first ++ second) c) ((do
      script file first
      script file second) c) := by
  have hparts : (do
      script file first
      script file second) c = (do
      lines file 1 (Source.lines first)
      script file second) (loading c file) := rfl
  rw [script_eq, Source.lines_append hend hclosed, lines_append, hparts]
  refine Alike.bind (.refl _) fun d d' hsilent _ hd => ?_
  have hfile : d'.file = file := by
    have hlasts := lasts_lines file 1 (Source.lines first) (loading c file)
    rw [after, hd] at hlasts
    exact hlasts.file
  have hloading : d.silent = (loading d' file).silent := by
    rw [hsilent, Compiler.silent, Compiler.silent, ← hfile]
    rfl
  exact alike_lines file _ 1 (Source.lines second) hloading

/-- A script cut inside an open block. -/
theorem script_append_block :
    ("var x\nif x\n" = "" ∨ "var x\nif x\n".toList.getLast? = some '\n') ∧
    ¬ Source.EndsInComment "var x\nif x\n" ∧
    Alike (script "" ("var x\nif x\n" ++ "x = 1\nendif") (Compiler.ofConfig {})) ((do
      script "" "var x\nif x\n"
      script "" "x = 1\nendif") (Compiler.ofConfig {})) :=
  have hend : "var x\nif x\n" = "" ∨ "var x\nif x\n".toList.getLast? = some '\n' :=
    .inr (by decide)
  have hclosed : ¬ Source.EndsInComment "var x\nif x\n" :=
    Source.not_endsInComment (by decide +kernel)
  ⟨hend, hclosed, script_append "" (Compiler.ofConfig {}) hend hclosed⟩

end Compile

end ScriptMachine
