/-
  ScriptMachine.Proofs.Reduction

  What the two phases of a reduction come to.  An expression is cut into products,
  its longest runs of operands joined by `*` and `/`.  They are taken in from left to
  right, and for every `*` and `/` a zero of the kind of the product is taken in first
  (`reduce_eq_takeIn`).  Among integers that zero matters only to the operator in front
  of the product (`reduce_integers`); in a sum it does no harm where the product is of
  the kind of the sum, and shows everywhere else (`reduce_eq_sumOfProducts_iff`).
-/

import Mathlib
import ScriptMachine.Proofs.Decoding
import ScriptMachine.Value.Reduction

namespace ScriptMachine.Value

/-! ## Products -/

/-- An operand and the factors behind it, each with its operator. -/
structure Product where
  first : Value
  factors : List (Operator × Value)

/-- Value of a product, worked out from left to right. -/
def Product.value (p : Product) : Except Error Value :=
  reduceLeft p.first p.factors

/-- Cuts what stands behind an operand: the factors of that operand, and the products
that follow, each with the operator in front of it. -/
def cut : List (Operator × Value) → List (Operator × Value) × List (Operator × Product)
  | [] => ([], [])
  | (op, v) :: rest =>
    if op.isMultiplicative then ((op, v) :: (cut rest).1, (cut rest).2)
    else ([], (op, ⟨v, (cut rest).1⟩) :: (cut rest).2)

theorem cut_cons_of_mul {op : Operator} (h : op.isMultiplicative = true) (v : Value)
    (rest : List (Operator × Value)) :
    cut ((op, v) :: rest) = ((op, v) :: (cut rest).1, (cut rest).2) :=
  if_pos h

theorem cut_cons_of_not_mul {op : Operator} (h : op.isMultiplicative = false) (v : Value)
    (rest : List (Operator × Value)) :
    cut ((op, v) :: rest) = ([], (op, ⟨v, (cut rest).1⟩) :: (cut rest).2) := by
  rw [cut, h]
  rfl

/-- Nothing is lost or moved by cutting. -/
theorem join_cut (rest : List (Operator × Value)) :
    (cut rest).1 ++ (cut rest).2.flatMap (fun x => (x.1, x.2.first) :: x.2.factors) = rest := by
  induction rest with
  | nil => rfl
  | cons x rest ih =>
    obtain ⟨op, v⟩ := x
    cases h : op.isMultiplicative with
    | true =>
      rw [cut_cons_of_mul h]
      exact congrArg ((op, v) :: ·) ih
    | false =>
      rw [cut_cons_of_not_mul h]
      exact congrArg ((op, v) :: ·) ih

/-- The products are cut as long as possible: factors are joined by `*` and `/`, and
nothing else is. -/
theorem isMultiplicative_cut (rest : List (Operator × Value)) :
    (∀ y ∈ (cut rest).1, y.1.isMultiplicative = true) ∧
      ∀ x ∈ (cut rest).2, x.1.isMultiplicative = false ∧
        ∀ y ∈ x.2.factors, y.1.isMultiplicative = true := by
  induction rest with
  | nil => simp [cut]
  | cons x rest ih =>
    obtain ⟨op, v⟩ := x
    cases h : op.isMultiplicative with
    | true =>
      rw [cut_cons_of_mul h]
      exact ⟨List.forall_mem_cons.2 ⟨h, ih.1⟩, ih.2⟩
    | false =>
      rw [cut_cons_of_not_mul h]
      exact ⟨by simp, List.forall_mem_cons.2 ⟨⟨h, ih.1⟩, ih.2⟩⟩

theorem mem_of_mem_factors {rest : List (Operator × Value)} :
    (∀ y ∈ (cut rest).1, y ∈ rest) ∧
      ∀ x ∈ (cut rest).2, (x.1, x.2.first) ∈ rest ∧ ∀ y ∈ x.2.factors, y ∈ rest := by
  have hjoin := join_cut rest
  refine ⟨fun y hy => ?_, fun x hx => ⟨?_, fun y hy => ?_⟩⟩
  · rw [← hjoin]
    exact List.mem_append_left _ hy
  · rw [← hjoin]
    exact List.mem_append_right _ (List.mem_flatMap.2 ⟨x, hx, List.mem_cons_self⟩)
  · rw [← hjoin]
    exact List.mem_append_right _ (List.mem_flatMap.2 ⟨x, hx, List.mem_cons_of_mem _ hy⟩)

/-! ## Taking products in -/

/-- Takes a product in behind `op`: a zero for each of its factors, then its value. -/
def takeIn (op : Operator) (acc first : Value) : List (Operator × Value) → Except Error Value
  | [] => apply op acc first
  | (o, v) :: factors => do
    let product ← apply o first v
    takeIn .add (← apply op acc product.kind.zero) product factors

/-- Takes in products one after the other. -/
def takeAllIn (acc : Value) (products : List (Operator × Product)) : Except Error Value :=
  products.foldlM (fun acc x => takeIn x.1 acc x.2.first x.2.factors) acc

/-- The first product of an expression has no operator in front of it. -/
def takeFirst (first : Value) : List (Operator × Value) → Except Error Value
  | [] => .ok first
  | (o, v) :: factors => do
    let product ← apply o first v
    takeIn .add product.kind.zero product factors

theorem reduceLeft_cons (acc v : Value) (op : Operator) (rest : List (Operator × Value)) :
    reduceLeft acc ((op, v) :: rest) = apply op acc v >>= (reduceLeft · rest) :=
  List.foldlM_cons

theorem value_cons (first v : Value) (o : Operator) (factors : List (Operator × Value)) :
    Product.value ⟨first, (o, v) :: factors⟩ =
      apply o first v >>= fun product => Product.value ⟨product, factors⟩ :=
  reduceLeft_cons first v o factors

/-- The products of an expression are settled when each of them has a value. -/
theorem exists_settled {rest : List (Operator × Value)} {first v : Value}
    (hfirst : Product.value ⟨first, (cut rest).1⟩ = .ok v)
    (hothers : ∀ x ∈ (cut rest).2, ∃ v, x.2.value = .ok v) :
    ∃ s, settleProducts first rest = .ok s := by
  induction rest generalizing first v with
  | nil => exact ⟨_, rfl⟩
  | cons x rest ih =>
    obtain ⟨o, u⟩ := x
    cases ho : o.isMultiplicative with
    | true =>
      rw [cut_cons_of_mul ho] at hfirst hothers
      rw [value_cons] at hfirst
      obtain ⟨product, hproduct, hvalue⟩ := except_bind_eq_ok hfirst
      obtain ⟨s, hs⟩ := ih hvalue hothers
      refine ⟨(product.kind.zero, (.add, s.1) :: s.2), ?_⟩
      rw [settleProducts, if_pos ho, hproduct]
      show settleProducts product rest >>= _ = _
      rw [hs]
      rfl
    | false =>
      rw [cut_cons_of_not_mul ho] at hothers
      obtain ⟨⟨w, hw⟩, hrest⟩ := List.forall_mem_cons.1 hothers
      obtain ⟨s, hs⟩ := ih hw hrest
      refine ⟨(first, (o, s.1) :: s.2), ?_⟩
      rw [settleProducts, if_neg (by simp [ho]), hs]
      rfl

/-- The settled rest of an expression is taken in product by product. -/
theorem reduceLeft_settled {rest : List (Operator × Value)} {first : Value}
    {s : Value × List (Operator × Value)} (hs : settleProducts first rest = .ok s)
    (op : Operator) (acc : Value) :
    reduceLeft acc ((op, s.1) :: s.2) =
      takeIn op acc first (cut rest).1 >>= fun acc => takeAllIn acc (cut rest).2 := by
  induction rest generalizing op acc first s with
  | nil =>
    obtain rfl := Except.ok.inj hs
    rw [reduceLeft_cons]
    rfl
  | cons x rest ih =>
    obtain ⟨o, v⟩ := x
    cases ho : o.isMultiplicative with
    | true =>
      rw [settleProducts, if_pos ho] at hs
      obtain ⟨product, hproduct, hs⟩ := except_bind_eq_ok hs
      obtain ⟨t, ht, hs⟩ := except_bind_eq_ok hs
      obtain rfl := Except.ok.inj hs
      rw [cut_cons_of_mul ho, takeIn, hproduct]
      show reduceLeft acc _ = (apply op acc product.kind.zero >>= _) >>= _
      rw [reduceLeft_cons, bind_assoc]
      exact congrArg _ (funext fun acc => ih ht .add acc)
    | false =>
      rw [settleProducts, if_neg (by simp [ho])] at hs
      obtain ⟨t, ht, hs⟩ := except_bind_eq_ok hs
      obtain rfl := Except.ok.inj hs
      rw [cut_cons_of_not_mul ho, reduceLeft_cons]
      exact congrArg _ (funext fun acc => ih ht o acc)

/-- An expression whose products have values is reduced product by product. -/
theorem reduce_eq_takeIn {first v : Value} {rest : List Value} {operators : List Operator}
    (hlen : rest.length = operators.length)
    (hfirst : Product.value ⟨first, (cut (operators.zip rest)).1⟩ = .ok v)
    (hothers : ∀ x ∈ (cut (operators.zip rest)).2, ∃ v, x.2.value = .ok v) :
    reduce (first :: rest) operators =
      takeFirst first (cut (operators.zip rest)).1 >>= fun acc =>
        takeAllIn acc (cut (operators.zip rest)).2 := by
  obtain ⟨s, hs⟩ := exists_settled hfirst hothers
  have hreduce : reduce (first :: rest) operators = reduceLeft s.1 s.2 := by
    rw [reduce, if_pos hlen, hs]
    rfl
  rw [hreduce]
  generalize operators.zip rest = pairs at hs
  cases pairs with
  | nil =>
    obtain rfl := Except.ok.inj hs
    rfl
  | cons x pairs =>
    obtain ⟨o, u⟩ := x
    -- the first value of the settled expression is what the rest is taken in to
    cases ho : o.isMultiplicative with
    | true =>
      rw [settleProducts, if_pos ho] at hs
      obtain ⟨product, hproduct, hs⟩ := except_bind_eq_ok hs
      obtain ⟨t, ht, hs⟩ := except_bind_eq_ok hs
      obtain rfl := Except.ok.inj hs
      rw [cut_cons_of_mul ho, takeFirst, hproduct]
      exact reduceLeft_settled ht .add _
    | false =>
      rw [settleProducts, if_neg (by simp [ho])] at hs
      obtain ⟨t, ht, hs⟩ := except_bind_eq_ok hs
      obtain rfl := Except.ok.inj hs
      rw [cut_cons_of_not_mul ho]
      exact reduceLeft_settled ht o _

/-- Without `*` and `/` an expression is reduced as it stands. -/
theorem reduce_eq_reduceLeft {first : Value} {rest : List Value} {operators : List Operator}
    (hlen : rest.length = operators.length)
    (hops : ∀ o ∈ operators, o.isMultiplicative = false) :
    reduce (first :: rest) operators = reduceLeft first (operators.zip rest) := by
  have hsettled : ∀ (pairs : List (Operator × Value)) (first : Value),
      (∀ y ∈ pairs, y.1.isMultiplicative = false) →
      settleProducts first pairs = .ok (first, pairs) := by
    intro pairs
    induction pairs with
    | nil => intro first _; rfl
    | cons y pairs ih =>
      obtain ⟨o, v⟩ := y
      intro first h
      obtain ⟨ho, hrest⟩ := List.forall_mem_cons.1 h
      rw [settleProducts, if_neg (by simp [show o.isMultiplicative = false from ho]), ih v hrest]
      rfl
  rw [reduce, if_pos hlen, hsettled _ _ fun y hy => hops _ (List.of_mem_zip hy).1]
  rfl

/-! ## Stray zeros -/

/-- Sums, products and quotients are of the kind of their left side. -/
theorem kind_apply {op : Operator} (hop : op = .add ∨ op.isMultiplicative = true) {l r v : Value}
    (h : apply op l r = .ok v) : v.kind = l.kind := by
  obtain rfl | rfl | rfl : op = .add ∨ op = .mul ∨ op = .div := by
    cases op <;> simp_all [Operator.isMultiplicative]
  all_goals
    cases l with
    | str l =>
      obtain rfl := Except.ok.inj h
      rfl
    | _ =>
      obtain ⟨_, _, h⟩ := except_bind_eq_ok h
      obtain rfl := Except.ok.inj h
      rfl

/-- The zeros that a product leaves in front of it where it is not of the kind of the
sum. -/
def strayZeros (kind : Kind) (p : Product) : Nat :=
  if p.first.kind = kind then 0 else p.factors.length

/-- A sum `v` of integers or texts, and what becomes of it when `n` stray zeros are taken
in on the way: an empty text counts -1 among integers, and an integer zero leaves its
digit in a text. -/
inductive Strayed : Nat → Value → Value → Prop where
  | int {n : Nat} (a : Int64) : Strayed n (.int a) (.int (a - Int64.ofNat n))
  | str {n : Nat} {s t : String} (hlen : t.length = s.length + n) (hsame : n = 0 → t = s) :
    Strayed n (.str s) (.str t)

theorem Strayed.refl {v : Value} (hv : v.kind = .int ∨ v.kind = .str) : Strayed 0 v v := by
  cases v with
  | int a => simpa using Strayed.int (n := 0) a
  | str s => exact .str rfl fun _ => rfl
  | _ => simp [kind] at hv

/-- The empty text reads as -1. -/
theorem toInteger_zero_str : Kind.str.zero.toInteger = .ok (-1) := by
  decide

namespace Strayed

variable {n : Nat} {v w u : Value}

/-- Adding keeps the stray zeros. -/
theorem sum (h : Strayed n v w) {v' : Value} (hv : v.sum u = .ok v') :
    ∃ w', w.sum u = .ok w' ∧ Strayed n v' w' := by
  cases h with
  | int a =>
    obtain ⟨k, hk, hv⟩ := except_bind_eq_ok hv
    obtain rfl := Except.ok.inj hv
    refine ⟨.int (a - Int64.ofNat n + k), ?_, ?_⟩
    · simp only [Value.sum, hk]
      rfl
    · have hmove : a - Int64.ofNat n + k = a + k - Int64.ofNat n := by
        rw [Int64.sub_eq_add_neg, Int64.sub_eq_add_neg, Int64.add_assoc, Int64.add_assoc,
          Int64.add_comm k]
      rw [hmove]
      exact .int (a + k)
  | @str s t hlen hsame =>
    obtain rfl := Except.ok.inj hv
    refine ⟨.str (t ++ u.toText), rfl, .str ?_ ?_⟩
    · rw [String.length_append, String.length_append, hlen]
      omega
    · intro hn
      rw [hsame hn]

/-- A zero of the kind of the sum is not seen, and another one is. -/
theorem zero (h : Strayed n v w) {k : Kind} (hk : k = .int ∨ k = .str) :
    ∃ w', w.sum k.zero = .ok w' ∧ Strayed (n + if k = v.kind then 0 else 1) v w' := by
  cases h with
  | int a =>
    rcases hk with rfl | rfl
    · refine ⟨.int (a - Int64.ofNat n), ?_, .int a⟩
      show Except.ok (Value.int (a - Int64.ofNat n + 0)) = _
      rw [Int64.add_zero]
    · refine ⟨.int (a - Int64.ofNat n + -1), ?_, ?_⟩
      · simp only [Value.sum, toInteger_zero_str]
        rfl
      · have hmove : a - Int64.ofNat n + -1 = a - Int64.ofNat (n + 1) := by
          rw [Int64.ofNat_add, Int64.sub_eq_add_neg, Int64.sub_eq_add_neg, Int64.neg_add,
            Int64.sub_eq_add_neg, Int64.add_assoc]
          rfl
        rw [hmove]
        exact .int a
  | @str s t hlen hsame =>
    rcases hk with rfl | rfl
    · refine ⟨.str (t ++ "0"), rfl, .str ?_ ?_⟩
      · rw [String.length_append, hlen]
        rfl
      · intro hn
        cases hn
    · refine ⟨.str (t ++ ""), rfl, ?_⟩
      rw [String.append_empty]
      exact .str hlen hsame

/-- A product behind a `+` leaves its stray zeros. -/
theorem takeIn (h : Strayed n v w) {first : Value} (hfirst : first.kind = .int ∨ first.kind = .str)
    {factors : List (Operator × Value)} (hmul : ∀ y ∈ factors, y.1.isMultiplicative = true)
    (hu : Product.value ⟨first, factors⟩ = .ok u) {v' : Value} (hv : v.sum u = .ok v') :
    ∃ w', Value.takeIn .add w first factors = .ok w' ∧
      Strayed (n + strayZeros v.kind ⟨first, factors⟩) v' w' := by
  induction factors generalizing first n w with
  | nil =>
    obtain rfl := Except.ok.inj hu
    obtain ⟨w', hw, h'⟩ := h.sum hv
    exact ⟨w', hw, by simpa [strayZeros] using h'⟩
  | cons y factors ih =>
    obtain ⟨o, x⟩ := y
    obtain ⟨ho, hrest⟩ := List.forall_mem_cons.1 hmul
    rw [value_cons] at hu
    obtain ⟨product, hproduct, hu⟩ := except_bind_eq_ok hu
    have hkind : product.kind = first.kind := kind_apply (.inr ho) hproduct
    rw [← hkind] at hfirst
    obtain ⟨w₁, hw₁, h₁⟩ := h.zero hfirst
    obtain ⟨w', hw, h'⟩ := ih h₁ hfirst hrest hu
    refine ⟨w', ?_, ?_⟩
    · rw [Value.takeIn, hproduct]
      show (apply .add w product.kind.zero >>= fun acc =>
        Value.takeIn .add acc product factors) = _
      rw [show apply .add w product.kind.zero = .ok w₁ from hw₁]
      exact hw
    · have hcount : n + (if product.kind = v.kind then 0 else 1) +
          strayZeros v.kind ⟨product, factors⟩ =
            n + strayZeros v.kind ⟨first, (o, x) :: factors⟩ := by
        simp only [strayZeros, hkind, List.length_cons]
        split <;> omega
      rw [← hcount]
      exact h'

/-- The stray zeros are not seen in an integer that they wrap around to itself, and in a
text where there are none. -/
theorem eq_iff (h : Strayed n v w) : w = v ↔ 2 ^ 64 ∣ n ∧ (v.kind = .str → n = 0) := by
  cases h with
  | int a =>
    have hzero : a - Int64.ofNat n = a ↔ Int64.ofNat n = 0 := by
      rw [← Int64.toBitVec_inj, ← Int64.toBitVec_inj, Int64.toBitVec_sub, Int64.toBitVec_zero]
      bv_omega
    have hdvd : Int64.ofNat n = 0 ↔ 2 ^ 64 ∣ n := by
      rw [← Int64.toBitVec_inj, ← BitVec.toNat_inj]
      simp
      omega
    simp [hzero, hdvd, kind]
  | @str s t hlen hsame =>
    constructor
    · intro hts
      obtain rfl := Value.str.inj hts
      have hn : n = 0 := by omega
      subst hn
      exact ⟨Nat.dvd_zero _, fun _ => rfl⟩
    · intro hn
      rw [hsame (hn.2 rfl)]

end Strayed

theorem kind_value {first v : Value} {factors : List (Operator × Value)}
    (hmul : ∀ y ∈ factors, y.1.isMultiplicative = true)
    (hv : Product.value ⟨first, factors⟩ = .ok v) : v.kind = first.kind := by
  induction factors generalizing first with
  | nil =>
    obtain rfl := Except.ok.inj hv
    rfl
  | cons y factors ih =>
    obtain ⟨o, x⟩ := y
    obtain ⟨ho, hrest⟩ := List.forall_mem_cons.1 hmul
    rw [value_cons] at hv
    obtain ⟨product, hproduct, hv⟩ := except_bind_eq_ok hv
    rw [ih hrest hv, kind_apply (.inr ho) hproduct]

theorem zero_sum {v : Value} (hv : v.kind = .int ∨ v.kind = .str) :
    v.kind.zero.sum v = .ok v := by
  cases v with
  | int a =>
    show Except.ok (Value.int (0 + a)) = _
    rw [Int64.zero_add]
  | str s =>
    show Except.ok (Value.str ("" ++ s)) = _
    rw [String.empty_append]
  | _ => simp [kind] at hv

/-- A product of the kind of the sum leaves nothing. -/
theorem takeIn_eq_sum {acc first u v : Value} (hacc : acc.kind = .int ∨ acc.kind = .str)
    (hkind : first.kind = acc.kind) {factors : List (Operator × Value)}
    (hmul : ∀ y ∈ factors, y.1.isMultiplicative = true)
    (hu : Product.value ⟨first, factors⟩ = .ok u) (hv : acc.sum u = .ok v) :
    takeIn .add acc first factors = .ok v := by
  obtain ⟨w, hw, h⟩ := (Strayed.refl hacc).takeIn (hkind ▸ hacc) hmul hu hv
  rw [strayZeros, if_pos hkind] at h
  obtain rfl : w = v := h.eq_iff.2 ⟨Nat.dvd_zero _, fun _ => rfl⟩
  exact hw

/-- Neither does the first product. -/
theorem takeFirst_eq_value {first v : Value} (hfirst : first.kind = .int ∨ first.kind = .str)
    {factors : List (Operator × Value)} (hmul : ∀ y ∈ factors, y.1.isMultiplicative = true)
    (hv : Product.value ⟨first, factors⟩ = .ok v) : takeFirst first factors = .ok v := by
  cases factors with
  | nil => exact hv
  | cons y factors =>
    obtain ⟨o, x⟩ := y
    obtain ⟨ho, hrest⟩ := List.forall_mem_cons.1 hmul
    rw [value_cons] at hv
    obtain ⟨product, hproduct, hv⟩ := except_bind_eq_ok hv
    have hproductKind : product.kind = first.kind := kind_apply (.inr ho) hproduct
    have hvalueKind : v.kind = product.kind := kind_value hrest hv
    rw [← hproductKind] at hfirst
    have hzeroKind : product.kind = product.kind.zero.kind := by
      rcases hfirst with h | h
      · rw [h]
        rfl
      · rw [h]
        rfl
    have hsum : product.kind.zero.sum v = .ok v := by
      rw [← hvalueKind]
      exact zero_sum (hvalueKind ▸ hfirst)
    rw [takeFirst, hproduct]
    exact takeIn_eq_sum (hzeroKind ▸ hfirst) hzeroKind hrest hv hsum

/-! ## Integers -/

theorem kind_eq_int_iff {v : Value} : v.kind = .int ↔ ∃ n, v = .int n := by
  cases v <;> simp [kind]

/-- Every operator but the closing mark gives an integer for two integers. -/
theorem exists_apply_int {op : Operator} (hop : op ≠ .close) (a b : Int64) :
    ∃ n, apply op (.int a) (.int b) = .ok (.int n) := by
  cases op with
  | close => exact absurd rfl hop
  | and | or =>
    simp only [apply]
    split
    · exact ⟨_, rfl⟩
    · exact ⟨_, rfl⟩
  | _ => exact ⟨_, rfl⟩

theorem ne_close_of_isMultiplicative {op : Operator} (h : op.isMultiplicative = true) :
    op ≠ .close := by
  rintro rfl
  cases h

/-- Integers joined by `*` and `/`. -/
def Integers (factors : List (Operator × Value)) : Prop :=
  ∀ y ∈ factors, y.1.isMultiplicative = true ∧ y.2.kind = .int

theorem exists_value_int {factors : List (Operator × Value)} (h : Integers factors) (b : Int64) :
    ∃ p, Product.value ⟨.int b, factors⟩ = .ok (.int p) := by
  induction factors generalizing b with
  | nil => exact ⟨b, rfl⟩
  | cons y factors ih =>
    obtain ⟨o, v⟩ := y
    obtain ⟨⟨ho, hv⟩, hrest⟩ := List.forall_mem_cons.1 h
    obtain ⟨c, rfl⟩ := kind_eq_int_iff.1 hv
    obtain ⟨n, hn⟩ := exists_apply_int (ne_close_of_isMultiplicative ho) b c
    rw [value_cons, hn]
    exact ih hrest n

/-- Between two integers nothing is left behind: the reduction is the operator. -/
theorem reduce_pair_int {op : Operator} (hop : op ≠ .close) (a b : Int64) :
    reduce [.int a, .int b] [op] = apply op (.int a) (.int b) := by
  obtain ⟨n, hn⟩ := exists_apply_int hop a b
  cases ho : op.isMultiplicative with
  | true =>
    have hcut : cut ([op].zip [.int b]) = ([(op, .int b)], []) := cut_cons_of_mul ho _ _
    have hvalue : Product.value ⟨.int a, (cut ([op].zip [.int b])).1⟩ = .ok (.int n) := by
      rw [hcut, value_cons, hn]
      rfl
    have hmul := (isMultiplicative_cut ([op].zip [.int b])).1
    have hothers : ∀ x ∈ (cut ([op].zip [.int b])).2, ∃ v, x.2.value = .ok v := by
      rw [hcut]
      simp
    rw [reduce_eq_takeIn rfl hvalue hothers,
      takeFirst_eq_value (.inl rfl) hmul hvalue, hcut, hn]
    rfl
  | false =>
    rw [reduce_eq_reduceLeft rfl (List.forall_mem_singleton.2 ho)]
    show reduceLeft (.int a) [(op, .int b)] = _
    rw [reduceLeft_cons, hn]
    rfl

/-- A product behind an operator: an operand alone is its right side; otherwise the
right side is zero, and the value of the product is added. -/
def addProduct (acc : Value) (x : Operator × Product) : Except Error Value := do
  let p ← x.2.value
  if x.2.factors.isEmpty then apply x.1 acc p else sum (← apply x.1 acc (.int 0)) p

/-- The value of an expression by its products: the first one, and the others added to
it from left to right. -/
def byProducts (first : Value) (rest : List (Operator × Value)) : Except Error Value := do
  (cut rest).2.foldlM addProduct (← Product.value ⟨first, (cut rest).1⟩)

/-- A product of integers behind an operator. -/
theorem takeIn_int {op : Operator} (hop : op ≠ .close) {factors : List (Operator × Value)}
    (h : Integers factors) (a b : Int64) :
    takeIn op (.int a) (.int b) factors = addProduct (.int a) (op, ⟨.int b, factors⟩) ∧
      ∃ n, addProduct (.int a) (op, ⟨.int b, factors⟩) = .ok (.int n) := by
  cases factors with
  | nil => exact ⟨rfl, exists_apply_int hop a b⟩
  | cons y factors =>
    obtain ⟨o, v⟩ := y
    obtain ⟨⟨ho, hv⟩, hrest⟩ := List.forall_mem_cons.1 h
    obtain ⟨c, rfl⟩ := kind_eq_int_iff.1 hv
    obtain ⟨n, hn⟩ := exists_apply_int (ne_close_of_isMultiplicative ho) b c
    obtain ⟨p, hp⟩ := exists_value_int hrest n
    obtain ⟨d, hd⟩ := exists_apply_int hop a 0
    have hproduct : addProduct (.int a) (op, ⟨.int b, (o, .int c) :: factors⟩) =
        .ok (.int (d + p)) := by
      have hvalue : Product.value ⟨.int b, (o, .int c) :: factors⟩ = .ok (.int p) := by
        rw [value_cons, hn]
        exact hp
      unfold addProduct
      rw [hvalue]
      show (do sum (← apply op (.int a) (.int 0)) (.int p)) = _
      rw [hd]
      rfl
    refine ⟨?_, d + p, hproduct⟩
    rw [hproduct, takeIn, hn]
    show (apply op (.int a) (.int 0) >>= fun acc => takeIn .add acc (.int n) factors) = _
    rw [hd]
    have hkind : (Value.int n).kind = (Value.int d).kind := rfl
    exact takeIn_eq_sum (.inl rfl) hkind (fun y hy => (hrest y hy).1) hp rfl

theorem takeAllIn_int {products : List (Operator × Product)}
    (h : ∀ x ∈ products, x.1 ≠ .close ∧ x.2.first.kind = .int ∧ Integers x.2.factors) (a : Int64) :
    takeAllIn (.int a) products = products.foldlM addProduct (.int a) ∧
      ∃ n, products.foldlM addProduct (.int a) = .ok (.int n) := by
  induction products generalizing a with
  | nil => exact ⟨rfl, a, rfl⟩
  | cons x products ih =>
    obtain ⟨op, p⟩ := x
    obtain ⟨⟨hop, hfirst, hfactors⟩, hrest⟩ := List.forall_mem_cons.1 h
    obtain ⟨b, hb⟩ := kind_eq_int_iff.1 hfirst
    obtain ⟨htake, n, hn⟩ := takeIn_int hop hfactors a b
    have hstep : takeIn op (.int a) p.first p.factors = .ok (.int n) := by
      rw [hb, htake, hn]
    have hadd : addProduct (.int a) (op, p) = .ok (.int n) := by
      rw [← hn, ← hb]
    unfold takeAllIn
    rw [List.foldlM_cons, List.foldlM_cons, hadd]
    show (takeIn op (.int a) p.first p.factors >>= _) = _ ∧ _
    rw [hstep]
    exact ih hrest n

/-- What inline expressions of integers mean.  With one operator between any two
operands, none of them the closing mark, the reduction succeeds, and its value is found
from left to right over the products: the first product is where it starts, an operand
alone is the right side of its operator, and a longer product is added after its operator
was applied to zero.  With any other number of operators the reduction fails. -/
theorem reduce_integers :
    (∀ (first : Int64) (rest : List Int64) (operators : List Operator),
      rest.length = operators.length → (∀ o ∈ operators, o ≠ .close) →
      ∃ n : Int64, reduce (.int first :: rest.map .int) operators = .ok (.int n) ∧
        byProducts (.int first) (operators.zip (rest.map .int)) = .ok (.int n)) ∧
    ∀ (operands : List Value) (operators : List Operator),
      operands.length ≠ operators.length + 1 →
      ∃ e, reduce operands operators = .error e ∧ e.kind = .internalError := by
  constructor
  · intro first rest operators hlen hops
    have hints : ∀ y ∈ operators.zip (rest.map Value.int),
        y.1 ≠ .close ∧ y.2.kind = .int := by
      rintro ⟨o, v⟩ hy
      obtain ⟨ho, hv⟩ := List.of_mem_zip hy
      obtain ⟨n, _, rfl⟩ := List.mem_map.1 hv
      exact ⟨hops o ho, rfl⟩
    obtain ⟨hmulFirst, hmul⟩ := isMultiplicative_cut (operators.zip (rest.map Value.int))
    have hfactors : Integers (cut (operators.zip (rest.map .int))).1 :=
      fun y hy => ⟨hmulFirst y hy, (hints y (mem_of_mem_factors.1 y hy)).2⟩
    have hothers : ∀ x ∈ (cut (operators.zip (rest.map .int))).2,
        x.1 ≠ .close ∧ x.2.first.kind = .int ∧ Integers x.2.factors := by
      intro x hx
      obtain ⟨hmem, hall⟩ := mem_of_mem_factors.2 x hx
      exact ⟨(hints _ hmem).1, (hints _ hmem).2,
        fun y hy => ⟨(hmul x hx).2 y hy, (hints y (hall y hy)).2⟩⟩
    obtain ⟨p, hp⟩ := exists_value_int hfactors first
    have hvalues : ∀ x ∈ (cut (operators.zip (rest.map .int))).2, ∃ v, x.2.value = .ok v := by
      intro x hx
      obtain ⟨_, hfirst, hall⟩ := hothers x hx
      obtain ⟨b, hb⟩ := kind_eq_int_iff.1 hfirst
      obtain ⟨q, hq⟩ := exists_value_int hall b
      rw [← hb] at hq
      exact ⟨_, hq⟩
    obtain ⟨htake, n, hn⟩ := takeAllIn_int hothers p
    refine ⟨n, ?_, ?_⟩
    · rw [reduce_eq_takeIn (by simpa using hlen) hp hvalues,
        takeFirst_eq_value (.inl rfl) hmulFirst hp]
      exact htake.trans hn
    · unfold byProducts
      rw [hp]
      exact hn
  · intro operands operators hlen
    cases operands with
    | nil => exact ⟨_, rfl, rfl⟩
    | cons first rest =>
      rw [List.length_cons, ne_eq, Nat.add_right_cancel_iff] at hlen
      exact ⟨_, if_neg hlen, rfl⟩

/-- Three times two from ten: the operator in front of the product is applied to zero. -/
theorem ten_minus_two_times_three :
    (∃ n : Int64, reduce [.int 10, .int 2, .int 3] [.sub, .mul] = .ok (.int n) ∧
        byProducts (.int 10) [(.sub, .int 2), (.mul, .int 3)] = .ok (.int n)) ∧
      ∃ e, reduce [.int 1] [.add] = .error e ∧ e.kind = .internalError :=
  ⟨reduce_integers.1 10 [2, 3] [.sub, .mul] (by decide) (by decide),
    reduce_integers.2 [.int 1] [.add] (by decide)⟩

/-! ## Sums of integers and texts -/

/-- Adds the value of a product. -/
def addTerm (acc : Value) (x : Operator × Product) : Except Error Value := do
  sum acc (← x.2.value)

/-- The sum of the products of an expression, from left to right. -/
def sumOfProducts (first : Value) (rest : List (Operator × Value)) : Except Error Value := do
  (cut rest).2.foldlM addTerm (← Product.value ⟨first, (cut rest).1⟩)

/-- The products of a sum leave theirs, one after the other. -/
theorem Strayed.takeAllIn {n : Nat} {v w : Value} (h : Strayed n v w)
    {products : List (Operator × Product)}
    (hproducts : ∀ x ∈ products, x.1 = .add ∧ (x.2.first.kind = .int ∨ x.2.first.kind = .str) ∧
      ∀ y ∈ x.2.factors, y.1.isMultiplicative = true) {v' : Value}
    (hv : products.foldlM addTerm v = .ok v') :
    ∃ w', Value.takeAllIn w products = .ok w' ∧
      Strayed (n + (products.map fun x => strayZeros v.kind x.2).sum) v' w' := by
  induction products generalizing n v w with
  | nil =>
    obtain rfl := Except.ok.inj hv
    exact ⟨w, rfl, h⟩
  | cons x products ih =>
    obtain ⟨op, p⟩ := x
    obtain ⟨⟨hop, hfirst, hmul⟩, hrest⟩ := List.forall_mem_cons.1 hproducts
    obtain rfl : op = .add := hop
    rw [List.foldlM_cons] at hv
    obtain ⟨v₁, hv₁, hv⟩ := except_bind_eq_ok hv
    obtain ⟨u, hu, hsum⟩ := except_bind_eq_ok hv₁
    obtain ⟨w₁, hw₁, h₁⟩ := h.takeIn hfirst hmul hu hsum
    obtain ⟨w', hw, h'⟩ := ih h₁ hrest hv
    refine ⟨w', ?_, ?_⟩
    · unfold Value.takeAllIn
      rw [List.foldlM_cons, hw₁]
      exact hw
    · rw [kind_apply (.inl rfl) hsum] at h'
      rw [List.map_cons, List.sum_cons, ← Nat.add_assoc]
      exact h'

theorem foldlM_addTerm_eq_ok {products : List (Operator × Product)} {acc v : Value}
    (h : products.foldlM addTerm acc = .ok v) :
    v.kind = acc.kind ∧ ∀ x ∈ products, ∃ u, x.2.value = .ok u := by
  induction products generalizing acc with
  | nil =>
    obtain rfl := Except.ok.inj h
    exact ⟨rfl, by simp⟩
  | cons x products ih =>
    rw [List.foldlM_cons] at h
    obtain ⟨acc', hadd, h⟩ := except_bind_eq_ok h
    obtain ⟨u, hu, hsum⟩ := except_bind_eq_ok hadd
    obtain ⟨hkind, hvalues⟩ := ih h
    exact ⟨hkind.trans (kind_apply (.inl rfl) hsum), List.forall_mem_cons.2 ⟨⟨u, hu⟩, hvalues⟩⟩

/-- How many stray zeros an expression leaves: one for each `*` and `/` of a later
product that is not of the kind of the first operand. -/
def strayZerosIn (first : Value) (rest : List (Operator × Value)) : Nat :=
  ((cut rest).2.map fun x => strayZeros first.kind x.2).sum

/-- Products bind tighter than `+`, but for the zeros they leave behind.  Where integers
and texts are joined by `+`, `*` and `/` and the sum of their products has a value, the
reduction succeeds.  It gives that value exactly if no product leaves a zero of another
kind; in a sum of integers, where such a zero is an empty text and counts -1, also if
they are so many that they wrap around. -/
theorem reduce_eq_sumOfProducts_iff (first : Value) (rest : List Value)
    (operators : List Operator) {v : Value} (hlen : rest.length = operators.length)
    (hops : ∀ o ∈ operators, o = .add ∨ o = .mul ∨ o = .div)
    (hkinds : ∀ u ∈ first :: rest, u.kind = .int ∨ u.kind = .str)
    (hv : sumOfProducts first (operators.zip rest) = .ok v) :
    ∃ w, reduce (first :: rest) operators = .ok w ∧
      (w = v ↔ 2 ^ 64 ∣ strayZerosIn first (operators.zip rest) ∧
        (first.kind = .str → strayZerosIn first (operators.zip rest) = 0)) := by
  obtain ⟨u, hu, hfold⟩ := except_bind_eq_ok hv
  obtain ⟨hfirst, hrest⟩ := List.forall_mem_cons.1 hkinds
  obtain ⟨hmulFirst, hmul⟩ := isMultiplicative_cut (operators.zip rest)
  have hproducts : ∀ x ∈ (cut (operators.zip rest)).2, x.1 = .add ∧
      (x.2.first.kind = .int ∨ x.2.first.kind = .str) ∧
      ∀ y ∈ x.2.factors, y.1.isMultiplicative = true := by
    intro x hx
    obtain ⟨hop, hvalue⟩ := List.of_mem_zip (mem_of_mem_factors.2 x hx).1
    refine ⟨?_, hrest _ hvalue, (hmul x hx).2⟩
    rcases hops _ hop with h | h | h
    · exact h
    · exact absurd (hmul x hx).1 (by simp [h, Operator.isMultiplicative])
    · exact absurd (hmul x hx).1 (by simp [h, Operator.isMultiplicative])
  have hkind : u.kind = first.kind := kind_value hmulFirst hu
  obtain ⟨hsumKind, hvalues⟩ := foldlM_addTerm_eq_ok hfold
  obtain ⟨w, hw, h⟩ := (Strayed.refl (hkind.symm ▸ hfirst)).takeAllIn hproducts hfold
  refine ⟨w, ?_, ?_⟩
  · rw [reduce_eq_takeIn hlen hu hvalues, takeFirst_eq_value hfirst hmulFirst hu]
    exact hw
  · rw [h.eq_iff, hsumKind, Nat.zero_add, hkind]
    rfl

/-- A product of integers in a text leaves a digit in front of it. -/
theorem product_in_text_leaves_zero :
    sumOfProducts (.str "a") [(.add, .int 2), (.mul, .int 3)] = .ok (.str "a6") ∧
      reduce [.str "a", .int 2, .int 3] [.add, .mul] = .ok (.str "a06") ∧
      reduce [.str "a", .int 2, .int 3] [.add, .mul] ≠
        sumOfProducts (.str "a") [(.add, .int 2), (.mul, .int 3)] := by
  have hsum : sumOfProducts (.str "a") [(.add, .int 2), (.mul, .int 3)] = .ok (.str "a6") :=
    rfl
  have hreduce : reduce [.str "a", .int 2, .int 3] [.add, .mul] = .ok (.str "a06") :=
    rfl
  refine ⟨hsum, hreduce, ?_⟩
  rw [hsum, hreduce]
  simp

/-- A text times a number in a sum of texts leaves nothing. -/
theorem text_times_number_in_text :
    reduce [.str "a", .str "b", .int 3, .int 7] [.add, .mul, .add] = .ok (.str "ab7") := by
  have hsum : sumOfProducts (.str "a") [(.add, .str "b"), (.mul, .int 3), (.add, .int 7)] =
      .ok (.str "ab7") :=
    rfl
  obtain ⟨w, hw, hiff⟩ :=
    reduce_eq_sumOfProducts_iff (.str "a") [.str "b", .int 3, .int 7] [.add, .mul, .add]
      (by decide) (by decide) (by decide) hsum
  rw [hw, hiff.2 ⟨by decide, by decide⟩]

end ScriptMachine.Value
