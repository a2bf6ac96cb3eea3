/-
  ScriptMachine.Proofs.Stacking

  Stacks under any requests.  What a stack holds is a plain list with the top in front, on
  which every request was performed (`Stack.behind_eq`): also a push that is refused, since
  a push stores its element before it looks at the limit (`Stack.push_holding`).  A pop that
  is refused changes nothing.  So a stack is a list of limited size, changed by the granted
  requests only, as long as no push is refused, and no longer (`Stack.bounded_list`).
-/

import Mathlib.Data.List.Induction
import ScriptMachine.Stack

namespace ScriptMachine

namespace Stack

variable {α : Type}

-- ============================================================================
-- Stacks and lists
-- ============================================================================

/-- The stack that holds the elements of a list, the first one on top. -/
def holding (overflow underflow : String) (l : List α) : Stack α :=
  ⟨overflow, underflow, l.reverse.toArray⟩

section
variable (o u : String) (a b : α) {l : List α}

@[simp] theorem size_holding : (holding o u l).size = l.length := by
  simp [holding, size]

theorem push_holding_eq : push a (holding o u l) =
    if l.length < limit then .ok () (holding o u (a :: l))
    else .error (.of (.stackOverflow o)) (holding o u (a :: l)) := by
  have hpushed : ({ holding o u l with items := (holding o u l).items.push a } : Stack α) =
      holding o u (a :: l) := by
    simp [holding]
  simp only [push, hpushed, size_holding, List.length_cons, Nat.succ_le_iff]
  rfl

theorem push_holding (h : l.length < limit) :
    push a (holding o u l) = .ok () (holding o u (a :: l)) := by
  rw [push_holding_eq, if_pos h]

/-- A push that is refused leaves its element behind all the same. -/
theorem push_holding_full (h : limit ≤ l.length) :
    push a (holding o u l) = .error (.of (.stackOverflow o)) (holding o u (a :: l)) := by
  rw [push_holding_eq, if_neg (Nat.not_lt.2 h)]

theorem pop_holding_nil :
    pop (holding o u ([] : List α)) = .error (.of (.stackUnderflow u)) (holding o u []) :=
  rfl

theorem pop_holding_cons : pop (holding o u (a :: l)) = .ok a (holding o u l) := by
  simp [pop, top?, holding]

theorem pop_holding_eq_ok_iff {t : Stack α} :
    pop (holding o u l) = .ok a t ↔ l.head? = some a ∧ t = holding o u l.tail := by
  cases l with
  | nil => simp [pop_holding_nil]
  | cons b l => simp [pop_holding_cons, eq_comm]

theorem setTop_holding_nil : (holding o u []).setTop a = holding o u [] :=
  rfl

theorem setTop_holding_cons : (holding o u (b :: l)).setTop a = holding o u (a :: l) := by
  simp [setTop, holding]

end

-- ============================================================================
-- Requests in order
-- ============================================================================

/-- What a stack is asked for.  `setTop` replaces the top element, where there is one. -/
inductive Request (α : Type) where
  | push (a : α)
  | pop
  | setTop (a : α)
  | clear

/-- The answer to a request, with the element that was on top where it is about that. -/
def serve : Request α → EStateM Error (Stack α) (Option α)
  | .push a => do push a; return none
  | .pop => some <$> pop
  | .setTop a => fun s => .ok s.top? (s.setTop a)
  | .clear => fun s => .ok none s.clear

/-- The stack behind a request, granted or refused. -/
def answer (s : Stack α) (r : Request α) : Stack α :=
  match serve r s with
  | .ok _ t => t
  | .error _ t => t

/-- The requests that a stack grants, of those made one after the other. -/
def granted (s : Stack α) : List (Request α) → List (Request α)
  | [] => []
  | r :: rs =>
    match serve r s with
    | .ok _ _ => r :: granted (s.answer r) rs
    | .error _ _ => granted (s.answer r) rs

/-- The stack behind all requests so far; at first it is empty. -/
def behind (overflow underflow : String) (rs : List (Request α)) : Stack α :=
  rs.foldl answer { overflow, underflow }

/-- What a request does to a plain list with the top in front. -/
def perform : List α → Request α → List α
  | l, .push a => a :: l
  | l, .pop => l.tail
  | [], .setTop _ => []
  | _ :: l, .setTop a => a :: l
  | _, .clear => []

/-- A plain list behind requests, all of them performed. -/
def plain (rs : List (Request α)) : List α :=
  rs.foldl perform []

/-- No push of the requests is refused. -/
def GrantsPushes (overflow underflow : String) (rs : List (Request α)) : Prop :=
  ∀ front a, front ++ [.push a] <+: rs → ∃ t, push a (behind overflow underflow front) = .ok () t

theorem plain_append (rs : List (Request α)) (r : Request α) :
    plain (rs ++ [r]) = perform (plain rs) r := by
  rw [plain, List.foldl_append]
  rfl

-- ============================================================================
-- One request
-- ============================================================================

section
variable (o u : String) (a : α) {l : List α}

theorem serve_push (h : l.length < limit) :
    serve (.push a) (holding o u l) = .ok none (holding o u (a :: l)) := by
  simp only [serve, bind, EStateM.bind, push_holding o u a h]
  rfl

theorem serve_push_full (h : limit ≤ l.length) :
    serve (.push a) (holding o u l) = .error (.of (.stackOverflow o)) (holding o u (a :: l)) := by
  simp only [serve, bind, EStateM.bind, push_holding_full o u a h]

theorem serve_pop :
    serve .pop (holding o u (a :: l)) = .ok (some a) (holding o u l) := by
  simp only [serve, Functor.map, EStateM.map, pop_holding_cons]

theorem serve_pop_nil : serve .pop (holding o u ([] : List α)) =
    .error (.of (.stackUnderflow u)) (holding o u []) :=
  rfl

/-- What is refused, and what that leaves. -/
theorem serve_eq_error_iff {r : Request α} {e : Error} {t : Stack α} :
    serve r (holding o u l) = .error e t ↔
      (∃ a, r = .push a ∧ limit ≤ l.length ∧ e = .of (.stackOverflow o) ∧
        t = holding o u (a :: l)) ∨
      (r = .pop ∧ l = [] ∧ e = .of (.stackUnderflow u) ∧ t = holding o u l) := by
  cases r with
  | push a =>
    rcases Nat.lt_or_ge l.length limit with hroom | hfull
    · simp [serve_push o u a hroom, Nat.not_le.2 hroom]
    · simp [serve_push_full o u a hfull, hfull, eq_comm]
  | pop =>
    cases l with
    | nil => simp [serve_pop_nil, eq_comm]
    | cons a l => simp [serve_pop]
  | setTop a => simp [serve]
  | clear => simp [serve]

/-- Every request does to the elements what it does to a plain list, also a refused one. -/
theorem answer_holding (r : Request α) :
    (holding o u l).answer r = holding o u (perform l r) := by
  cases r with
  | push a =>
    rcases Nat.lt_or_ge l.length limit with hroom | hfull
    · rw [answer, serve_push o u a hroom]
      rfl
    · rw [answer, serve_push_full o u a hfull]
      rfl
  | pop =>
    cases l with
    | nil => rfl
    | cons a l =>
      rw [answer, serve_pop]
      rfl
  | setTop a =>
    cases l with
    | nil => exact setTop_holding_nil o u a
    | cons b l => exact setTop_holding_cons o u a b
  | clear => rfl

end

-- ============================================================================
-- All requests
-- ============================================================================

section
variable (o u : String)

/-- A stack holds what a plain list holds on which all requests were performed. -/
theorem behind_eq (rs : List (Request α)) : behind o u rs = holding o u (plain rs) := by
  have hfold : ∀ l, rs.foldl answer (holding o u l) = holding o u (rs.foldl perform l) := by
    induction rs with
    | nil => exact fun l => rfl
    | cons r rs ih =>
      intro l
      rw [List.foldl_cons, answer_holding, ih, List.foldl_cons]
  exact hfold []

/-- Only a push makes a list longer. -/
theorem length_perform_le {r : Request α} (h : ∀ a, r ≠ .push a) (l : List α) :
    (perform l r).length ≤ l.length := by
  cases r with
  | push a => exact absurd rfl (h a)
  | pop => simp [perform]
  | setTop a => cases l <;> simp [perform]
  | clear => exact Nat.zero_le _

variable {o u} {rs : List (Request α)}

/-- No push is refused exactly when the limit is kept all the way. -/
theorem grantsPushes_iff :
    GrantsPushes o u rs ↔ ∀ front, front <+: rs → (plain front).length ≤ limit := by
  constructor
  · intro hgrants front hfront
    induction front using List.reverseRecOn with
    | nil => exact Nat.zero_le limit
    | append_singleton front r ih =>
      rw [plain_append]
      by_cases hpush : ∃ a, r = .push a
      · obtain ⟨a, rfl⟩ := hpush
        obtain ⟨t, ht⟩ := hgrants front a hfront
        rw [behind_eq, push_holding_eq] at ht
        refine Nat.succ_le_of_lt (Nat.lt_of_not_le fun hfull => ?_)
        rw [if_neg (Nat.not_lt.2 hfull)] at ht
        cases ht
      · have hle := ih ((List.prefix_append front [r]).trans hfront)
        exact Nat.le_trans (length_perform_le (not_exists.1 hpush) _) hle
  · intro hbound front a hfront
    have hroom := hbound _ hfront
    rw [plain_append] at hroom
    exact ⟨_, by rw [behind_eq, push_holding o u a hroom]⟩

/-- Where the limit is kept, the requests that are refused leave a list as it is. -/
theorem foldl_granted {l : List α}
    (h : ∀ front, front <+: rs → (front.foldl perform l).length ≤ limit) :
    (granted (holding o u l) rs).foldl perform l = rs.foldl perform l := by
  induction rs generalizing l with
  | nil => rfl
  | cons r rs ih =>
    have hrest : ∀ front, front <+: rs →
        (front.foldl perform (perform l r)).length ≤ limit := by
      intro front hfront
      exact h (r :: front) (List.cons_prefix_cons.2 ⟨rfl, hfront⟩)
    rw [granted, answer_holding]
    cases hserve : serve r (holding o u l) with
    | ok x t => exact ih hrest
    | error e t =>
      -- the limit is kept, so what is refused is a pop from an empty stack
      have hsame : perform l r = l := by
        obtain ⟨a, rfl, hfull, -⟩ | ⟨rfl, rfl, -⟩ := (serve_eq_error_iff o u).1 hserve
        · have hkept : (a :: l).length ≤ limit := h [.push a] (List.prefix_append [_] rs)
          rw [List.length_cons] at hkept
          omega
        · rfl
      rw [hsame] at hrest
      rw [hsame, ih hrest, List.foldl_cons, hsame]

/-- A stack under any requests.  What it holds is what a plain list holds on which all of
them were performed, and a pop gives its top.  A push is refused when there are 65535
elements or more, which leaves the element behind nevertheless; a pop is refused when there
are none, which leaves the stack as it was; nothing else is refused.  At every point of the
requests the stack has at most 65535 elements, those of a plain list on which only the
granted requests were performed, if and only if none of the pushes is refused. -/
theorem bounded_list (o u : String) (rs : List (Request α)) :
    behind o u rs = holding o u (plain rs) ∧
    (∀ a t, pop (behind o u rs) = .ok a t ↔
      (plain rs).head? = some a ∧ t = holding o u (plain rs).tail) ∧
    (∀ r e t, serve r (behind o u rs) = .error e t ↔
      (∃ a, r = .push a ∧ 65535 ≤ (behind o u rs).size ∧ e = .of (.stackOverflow o) ∧
        t = holding o u (a :: plain rs)) ∨
      (r = .pop ∧ (behind o u rs).size = 0 ∧ e = .of (.stackUnderflow u) ∧
        t = behind o u rs)) ∧
    ((∀ front, front <+: rs →
        behind o u front = holding o u (plain (granted { overflow := o, underflow := u } front)) ∧
        (behind o u front).size ≤ 65535) ↔
      GrantsPushes o u rs) := by
  refine ⟨behind_eq o u rs, fun a t => ?_, fun r e t => ?_, ?_, ?_⟩
  · rw [behind_eq]
    exact pop_holding_eq_ok_iff o u a
  · rw [behind_eq, size_holding, List.length_eq_zero_iff]
    exact serve_eq_error_iff o u
  · intro hlaw
    refine grantsPushes_iff.2 fun front hfront => ?_
    have hsize := (hlaw front hfront).2
    rwa [behind_eq, size_holding] at hsize
  · intro hgrants front hfront
    have hbound := grantsPushes_iff.1 hgrants
    have hplain : plain (granted (holding o u []) front) = plain front :=
      foldl_granted fun front' h => hbound front' (h.trans hfront)
    refine ⟨?_, ?_⟩
    · rw [behind_eq, ← hplain]
      rfl
    · rw [behind_eq, size_holding]
      exact hbound front hfront

end

end Stack

end ScriptMachine
