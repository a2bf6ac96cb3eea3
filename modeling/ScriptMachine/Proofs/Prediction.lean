/-
  ScriptMachine.Proofs.Prediction

  Labels are predicted.  Blocks are opened, stepped and closed by calls in any order; some
  of the calls fail, and then the blocks stay as they are.  A call that succeeds returns a
  label that was never returned before (`Blocks.nodup_returned`), so an address stays once
  it is recorded.  While a block is innermost, the label of its next step and the label of
  its end can be asked for; whatever is opened, stepped and closed inside the block in the
  meantime, these labels are the ones returned later (`Blocks.labels_predicted`).
-/

import ScriptMachine.Proofs.Steps

namespace ScriptMachine

namespace Blocks

/-! ## Calls -/

/-- What is done to the blocks at an address. -/
inductive Call where
  | start
  | link
  | close
  deriving DecidableEq, Repr

/-- The answer to a call: the label that was reached and the blocks behind the call. -/
def Call.answer : Call → Blocks → Nat → Except Error (Label × Blocks)
  | start => Blocks.start
  | link => Blocks.link
  | close => Blocks.close

/-- The blocks behind a call; a call that fails leaves them as they are. -/
def after (b : Blocks) (x : Call × Nat) : Blocks :=
  match x.1.answer b x.2 with
  | .ok (_, b') => b'
  | .error _ => b

/-- The blocks behind several calls. -/
def afterAll (b : Blocks) (xs : List (Call × Nat)) : Blocks :=
  xs.foldl after b

/-- The calls that succeed, each with the label that it returns. -/
def returned (b : Blocks) : List (Call × Nat) → List (Call × Label)
  | [] => []
  | x :: xs =>
    match x.1.answer b x.2 with
    | .ok (l, b') => (x.1, l) :: returned b' xs
    | .error _ => returned b xs

section
variable {b b' : Blocks} {x : Call × Nat} {xs : List (Call × Nat)} {l : Label} {e : Error}

theorem after_of_ok (h : x.1.answer b x.2 = .ok (l, b')) : b.after x = b' := by
  simp only [after, h]

theorem after_of_error (h : x.1.answer b x.2 = .error e) : b.after x = b := by
  simp only [after, h]

theorem afterAll_cons (b : Blocks) (x : Call × Nat) (xs : List (Call × Nat)) :
    b.afterAll (x :: xs) = (b.after x).afterAll xs :=
  rfl

theorem returned_of_ok (h : x.1.answer b x.2 = .ok (l, b')) :
    b.returned (x :: xs) = (x.1, l) :: b'.returned xs := by
  simp only [returned, h]

theorem returned_of_error (h : x.1.answer b x.2 = .error e) :
    b.returned (x :: xs) = b.returned xs := by
  simp only [returned, h]

end

/-! ## Labels are returned once -/

section
variable {b b' : Blocks} {x : Call} {a : Nat} {l : Label}

/-- A call that succeeds records the address of a label that had none, and no address is
lost. -/
theorem Consistent.answer (hb : b.Consistent) (h : x.answer b a = .ok (l, b')) :
    b'.Consistent ∧ b.Extends b' ∧ b.address? l = none ∧ b'.address? l = some a := by
  cases x with
  | start =>
    obtain ⟨hb', hext⟩ := hb.start h
    obtain ⟨_, rfl, rfl⟩ := start_eq_ok_iff.1 h
    exact ⟨hb', hext, hb.address?_start, by simp⟩
  | link =>
    obtain ⟨hb', hext⟩ := hb.link h
    obtain ⟨o, rest, ho, hs, rfl, rfl⟩ := link_eq_ok_iff.1 h
    exact ⟨hb', hext, hb.address?_next (by simp [ho]) hs, by simp⟩
  | close =>
    obtain ⟨hb', hext⟩ := hb.close h
    obtain ⟨o, rest, ho, rfl, rfl⟩ := close_eq_ok_iff.1 h
    exact ⟨hb', hext, hb.address?_finish (by simp [ho]), by simp⟩

theorem Consistent.after (hb : b.Consistent) (x : Call × Nat) :
    (b.after x).Consistent ∧ b.Extends (b.after x) := by
  cases h : x.1.answer b x.2 with
  | error e =>
    rw [after_of_error h]
    exact ⟨hb, .refl b⟩
  | ok r =>
    obtain ⟨hb', hext, _⟩ := hb.answer h
    rw [after_of_ok h]
    exact ⟨hb', hext⟩

theorem Consistent.afterAll (hb : b.Consistent) (xs : List (Call × Nat)) :
    (b.afterAll xs).Consistent ∧ b.Extends (b.afterAll xs) := by
  induction xs generalizing b with
  | nil => exact ⟨hb, .refl b⟩
  | cons x xs ih =>
    obtain ⟨hb', hext⟩ := hb.after x
    obtain ⟨hlast, hext'⟩ := ih hb'
    exact ⟨hlast, hext.trans hext'⟩

/-- Labels are returned once, and none that had an address before. -/
theorem Consistent.nodup_returned (hb : b.Consistent) (xs : List (Call × Nat)) :
    ((b.returned xs).map Prod.snd).Nodup ∧
      ∀ l ∈ (b.returned xs).map Prod.snd, b.address? l = none := by
  induction xs generalizing b with
  | nil => exact ⟨List.nodup_nil, fun _ h => nomatch h⟩
  | cons x xs ih =>
    cases h : x.1.answer b x.2 with
    | error e =>
      rw [returned_of_error h]
      exact ih hb
    | ok r =>
      obtain ⟨hb', hext, hnew, hrecorded⟩ := hb.answer h
      obtain ⟨hnodup, hfresh⟩ := ih hb'
      rw [returned_of_ok h, List.map_cons, List.nodup_cons, List.forall_mem_cons]
      refine ⟨⟨fun hmem => ?_, hnodup⟩, hnew, fun m hm => ?_⟩
      · rw [hfresh _ hmem] at hrecorded
        cases hrecorded
      · cases hm' : b.address? m with
        | none => rfl
        | some a =>
          have hkept := hext m a hm'
          rw [hfresh m hm] at hkept
          cases hkept

end

/-! ## Depth -/

/-- Number of calls of a kind among those that succeeded. -/
def count (x : Call) (rs : List (Call × Label)) : Nat :=
  rs.countP (·.1 = x)

section
variable {b b' : Blocks} {x : Call} {a : Nat} {l : Label}

/-- A start makes the blocks one deeper, and a close one less deep. -/
theorem depth_answer (h : x.answer b a = .ok (l, b')) :
    b'.depth + count .close [(x, l)] = b.depth + count .start [(x, l)] := by
  cases x with
  | start =>
    obtain ⟨_, _, rfl⟩ := start_eq_ok_iff.1 h
    simp [count, depth]
  | link =>
    obtain ⟨o, rest, ho, _, _, rfl⟩ := link_eq_ok_iff.1 h
    simp [count, depth, ho]
  | close =>
    obtain ⟨o, rest, ho, _, rfl⟩ := close_eq_ok_iff.1 h
    simp [count, depth, ho]

theorem depth_afterAll (b : Blocks) (xs : List (Call × Nat)) :
    (b.afterAll xs).depth + count .close (b.returned xs) =
      b.depth + count .start (b.returned xs) := by
  induction xs generalizing b with
  | nil => rfl
  | cons x xs ih =>
    rw [afterAll_cons]
    cases h : x.1.answer b x.2 with
    | error e =>
      rw [after_of_error h, returned_of_error h]
      exact ih b
    | ok r =>
      have hstep := depth_answer h
      have hrest := ih r.2
      rw [after_of_ok h, returned_of_ok h]
      simp only [count, List.countP_cons, List.countP_nil] at hstep hrest ⊢
      omega

theorem isComplete_iff_depth (b : Blocks) : b.isComplete = true ↔ b.depth = 0 := by
  simp [isComplete, depth]

/-- Numbers are given out by starts only, and never above the limit. -/
theorem allocated_answer (h : x.answer b a = .ok (l, b')) :
    b'.limit = b.limit ∧ b'.allocated = b.allocated + count .start [(x, l)] := by
  cases x with
  | start =>
    obtain ⟨_, _, rfl⟩ := start_eq_ok_iff.1 h
    simp [count]
  | link =>
    obtain ⟨_, _, _, _, _, rfl⟩ := link_eq_ok_iff.1 h
    simp [count]
  | close =>
    obtain ⟨_, _, _, _, rfl⟩ := close_eq_ok_iff.1 h
    simp [count]

theorem allocated_afterAll (b : Blocks) (xs : List (Call × Nat)) :
    (b.afterAll xs).limit = b.limit ∧
      (b.afterAll xs).allocated = b.allocated + count .start (b.returned xs) := by
  induction xs generalizing b with
  | nil => exact ⟨rfl, rfl⟩
  | cons x xs ih =>
    rw [afterAll_cons]
    cases h : x.1.answer b x.2 with
    | error e =>
      rw [after_of_error h, returned_of_error h]
      exact ih b
    | ok r =>
      obtain ⟨hlimit, hstep⟩ := allocated_answer h
      obtain ⟨hlimit', hrest⟩ := ih r.2
      rw [after_of_ok h, returned_of_ok h]
      refine ⟨hlimit'.trans hlimit, ?_⟩
      simp only [count, List.countP_cons, List.countP_nil] at hstep hrest ⊢
      omega

end

/-! ## Calls around a block -/

/-- From `b`, the calls lead back to depth `d`.  While the depth is `d`, only calls that
`own` allows succeed; the others are made inside blocks that were opened since. -/
def Returns (own : Call → Prop) (d : Nat) : Blocks → List (Call × Nat) → Prop
  | b, [] => b.depth = d
  | b, x :: xs =>
    (b.depth = d → own x.1 ∨ ∃ e, x.1.answer b x.2 = .error e) ∧ Returns own d (b.after x) xs

section
variable {b b' : Blocks} {own : Call → Prop} {x : Call} {a : Nat} {l : Label} {o : OpenBlock}
  {us rest : List OpenBlock}

/-- A call inside of a block, or one that may be made while the block is innermost, leaves
what is open around the block.  The block itself keeps its number, and its steps where
links of its own are not allowed. -/
theorem opened_answer (hopened : b.opened = us ++ o :: rest)
    (hown : us = [] → own x) (hclose : ¬ own .close) (h : x.answer b a = .ok (l, b')) :
    ∃ us' o', b'.opened = us' ++ o' :: rest ∧ o'.number = o.number ∧
      (¬ own .link → o' = o) := by
  cases x with
  | start =>
    obtain ⟨_, _, rfl⟩ := start_eq_ok_iff.1 h
    exact ⟨⟨b.allocated, 0⟩ :: us, o, by simp [hopened], rfl, fun _ => rfl⟩
  | link =>
    obtain ⟨u, tail, hu, _, _, rfl⟩ := link_eq_ok_iff.1 h
    rw [hopened] at hu
    cases us with
    | nil =>
      obtain ⟨rfl, rfl⟩ := List.cons.inj hu
      exact ⟨[], _, rfl, rfl, fun hlink => absurd (hown rfl) hlink⟩
    | cons v us =>
      obtain ⟨rfl, rfl⟩ := List.cons.inj hu
      exact ⟨_ :: us, o, rfl, rfl, fun _ => rfl⟩
  | close =>
    obtain ⟨u, tail, hu, _, rfl⟩ := close_eq_ok_iff.1 h
    rw [hopened] at hu
    cases us with
    | nil => exact absurd (hown rfl) hclose
    | cons v us =>
      obtain ⟨_, rfl⟩ := List.cons.inj hu
      exact ⟨us, o, rfl, rfl, fun _ => rfl⟩

/-- After calls that lead back to the depth of a block, the block is innermost again. -/
theorem Returns.opened {xs : List (Call × Nat)} (hclose : ¬ own .close)
    (h : Returns own (rest.length + 1) b xs) (hopened : b.opened = us ++ o :: rest) :
    ∃ o', (b.afterAll xs).opened = o' :: rest ∧ o'.number = o.number ∧ (¬ own .link → o' = o) := by
  induction xs generalizing b us o with
  | nil =>
    have hdepth : b.opened.length = rest.length + 1 := h
    rw [hopened, List.length_append, List.length_cons] at hdepth
    have hnil : us = [] := List.eq_nil_of_length_eq_zero (by omega)
    subst hnil
    exact ⟨o, hopened, rfl, fun _ => rfl⟩
  | cons x xs ih =>
    obtain ⟨hfirst, hrest⟩ := h
    rw [afterAll_cons]
    cases hx : x.1.answer b x.2 with
    | error e =>
      rw [after_of_error hx] at hrest ⊢
      exact ih hrest hopened
    | ok r =>
      have hown : us = [] → own x.1 := by
        rintro rfl
        have hdepth : b.depth = rest.length + 1 := by rw [depth, hopened]; rfl
        rcases hfirst hdepth with hown | ⟨e, he⟩
        · exact hown
        · rw [hx] at he
          cases he
      obtain ⟨us', o', hopened', hnumber, hsteps⟩ := opened_answer hopened hown hclose hx
      rw [after_of_ok hx] at hrest ⊢
      obtain ⟨o'', hlast, hnumber', hsteps'⟩ := ih hrest hopened'
      exact ⟨o'', hlast, hnumber'.trans hnumber, fun hl => (hsteps' hl).trans (hsteps hl)⟩

end

/-- The next step of the innermost block is the one that was predicted, whatever was opened
and closed inside the block since. -/
theorem link_predicted {b : Blocks} {l : Label} (hl : b.nextLabel = .ok l)
    {ys : List (Call × Nat)} (h : Returns (· = .start) b.depth b ys) (a : Nat) :
    ∃ b', (b.afterAll ys).link a = .ok (l, b') ∧ b'.address? l = some a := by
  obtain ⟨o, rest, hopened, hsteps, rfl⟩ := nextLabel_eq_ok_iff.1 hl
  rw [depth, hopened] at h
  rw [← List.nil_append (o :: rest)] at hopened
  obtain ⟨o', hlast, _, hsame⟩ := h.opened (by decide) hopened
  obtain rfl := hsame (by decide)
  exact ⟨_, link_eq_ok_iff.2 ⟨o', rest, hlast, hsteps, rfl, rfl⟩, by simp⟩

/-- The end of the innermost block is the one that was predicted, whatever was opened and
closed inside the block since, and whatever steps it has taken. -/
theorem close_predicted {b : Blocks} {l : Label} (hl : b.endLabel = .ok l)
    {ys : List (Call × Nat)} (h : Returns (· ≠ .close) b.depth b ys) (a : Nat) :
    ∃ b', (b.afterAll ys).close a = .ok (l, b') ∧ b'.address? l = some a := by
  obtain ⟨o, rest, hopened, rfl⟩ := endLabel_eq_ok_iff.1 hl
  rw [depth, hopened] at h
  rw [← List.nil_append (o :: rest)] at hopened
  obtain ⟨o', hlast, hnumber, _⟩ := h.opened (by decide) hopened
  refine ⟨_, close_eq_ok_iff.2 ⟨o', rest, hlast, ?_, rfl⟩, by simp⟩
  rw [hnumber]

/-- When a call succeeds: below the limit a block can be started, an open block with fewer
than 255 steps can take another one, and an open block can be closed. -/
theorem answer_eq_ok_iff (b : Blocks) (x : Call) (a : Nat) :
    (∃ r, x.answer b a = .ok r) ↔
      match x with
      | .start => b.allocated < b.limit
      | .link => ∃ l, b.nextLabel = .ok l
      | .close => b.depth ≠ 0 := by
  cases x with
  | start => simp only [Call.answer, Prod.exists, start_eq_ok_iff, exists_and_left, exists_eq,
      and_true]
  | link =>
    simp only [Call.answer, Prod.exists, link_eq_ok_iff, nextLabel_eq_ok_iff]
    constructor
    · rintro ⟨l, _, o, rest, ho, hs, hl, _⟩
      exact ⟨l, o, rest, ho, hs, hl⟩
    · rintro ⟨l, o, rest, ho, hs, hl⟩
      exact ⟨l, _, o, rest, ho, hs, hl, rfl⟩
  | close =>
    simp only [Call.answer, Prod.exists, close_eq_ok_iff, depth]
    cases hb : b.opened with
    | nil => simp
    | cons o rest => simp

/-- The blocks predict their labels.  Whatever has been asked of them, the following holds.
A call that fails leaves the blocks, and the compile run that makes it, as they are; a start
fails only when as many blocks were started as the limit allows, a link only when no label
of a next step can be given, and a close only when nothing is open.  No block is open
exactly when the depth is 0, which is when as many blocks were started as closed.  The
labels returned are different, each call that succeeds records the address of its label,
and an address that is recorded stays.  And while a block is innermost, the label given for
its next step is the one that its next link returns and records, after any calls that start
and close blocks inside of it; and so is the label given for its end with its close, which
may come after links of its own as well. -/
theorem labels_predicted (limit : Nat) (xs : List (Call × Nat)) :
    let b := afterAll { limit } xs
    let rs := returned { limit } xs
    (∀ (x : Call × Nat) e, x.1.answer b x.2 = .error e → b.after x = b) ∧
    (∀ (x : Call) word c e c', Compile.onBlocks word x.answer c = .error e c' → c' = c) ∧
    (∀ a, ((∃ r, b.start a = .ok r) ↔ count .start rs < limit) ∧
      ((∃ r, b.link a = .ok r) ↔ ∃ l, b.nextLabel = .ok l) ∧
      ((∃ r, b.close a = .ok r) ↔ b.depth ≠ 0)) ∧
    (b.isComplete = true ↔ b.depth = 0) ∧ (b.depth = 0 ↔ count .start rs = count .close rs) ∧
    (rs.map Prod.snd).Nodup ∧
    (∀ (x : Call) a l b', x.answer b a = .ok (l, b') →
      b.address? l = none ∧ b'.address? l = some a) ∧
    (∀ l a ys, b.address? l = some a → (b.afterAll ys).address? l = some a) ∧
    (∀ l ys a, b.nextLabel = .ok l → Returns (· = .start) b.depth b ys →
      ∃ b', (b.afterAll ys).link a = .ok (l, b') ∧ b'.address? l = some a) ∧
    (∀ l ys a, b.endLabel = .ok l → Returns (· ≠ .close) b.depth b ys →
      ∃ b', (b.afterAll ys).close a = .ok (l, b') ∧ b'.address? l = some a) := by
  intro b rs
  have hempty := consistent_empty limit
  have hb : b.Consistent := (hempty.afterAll xs).1
  obtain ⟨hlimit, hallocated⟩ := allocated_afterAll { limit } xs
  have hdepth : b.depth + count .close rs = 0 + count .start rs := depth_afterAll { limit } xs
  refine ⟨fun x e => after_of_error, fun x word c e c' => Compile.onBlocks_eq_error, fun a => ?_,
    b.isComplete_iff_depth, ?_, (hempty.nodup_returned xs).1, ?_, ?_, ?_, ?_⟩
  · have hstart := b.answer_eq_ok_iff .start a
    rw [hlimit, hallocated, Nat.zero_add] at hstart
    exact ⟨hstart, b.answer_eq_ok_iff .link a, b.answer_eq_ok_iff .close a⟩
  · omega
  · intro x a l b' h
    exact (hb.answer h).2.2
  · intro l a ys h
    exact (hb.afterAll ys).2 l a h
  · exact fun l ys a hl h => link_predicted hl h a
  · exact fun l ys a hl h => close_predicted hl h a

end Blocks

end ScriptMachine
