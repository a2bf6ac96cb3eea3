/-
  ScriptMachine.Proofs.Decoding

  What is read stands in the stream.  A read that succeeds has gone over exactly
  the bytes of what it gives (`Code.Spans`), so a decoded instruction is legible and
  its written form stands where it was decoded (`Code.has_of_instruction`).  Hence
  a stream decodes to a list of instructions just when it is the bytes of these
  instructions (`Code.instructions_eq_ok_iff`).
-/

import ScriptMachine.Proofs.Encoding

namespace ScriptMachine

/-- Two computations in a row both succeed where the whole does. -/
theorem except_bind_eq_ok {ε α β : Type} {x : Except ε α} {f : α → Except ε β} {b : β}
    (h : x >>= f = .ok b) : ∃ a, x = .ok a ∧ f a = .ok b := by
  cases x with
  | error e => cases h
  | ok a => exact ⟨a, rfl, h⟩

theorem estate_bind_eq_ok {ε τ α β : Type} {x : EStateM ε τ α} {f : α → EStateM ε τ β} {w w'' : τ}
    {b : β} (h : (x >>= f) w = .ok b w'') : ∃ a w', x w = .ok a w' ∧ f a w' = .ok b w'' := by
  simp only [bind, EStateM.bind] at h
  split at h
  · exact ⟨_, _, ‹_›, h⟩
  · cases h

namespace Code

variable {c : Code} {α β : Type}

-- ============================================================================
-- Spans of items
-- ============================================================================

/-- The bytes of the items stand in the stream from `p` to `q`. -/
structure Spans (c : Code) (p : Nat) (is : List Item) (q : Nat) : Prop where
  holds : c.Holds p (Item.stream is)
  finish : q = p + (Item.stream is).length

theorem spans_nil (c : Code) (p : Nat) : c.Spans p [] p :=
  ⟨holds_nil c p, rfl⟩

theorem Spans.append {p q r : Nat} {is js : List Item} (h : c.Spans p is q)
    (k : c.Spans q js r) : c.Spans p (is ++ js) r := by
  obtain ⟨hh, rfl⟩ := h
  obtain ⟨kh, rfl⟩ := k
  refine ⟨?_, ?_⟩
  · rw [Item.stream_append]
    exact holds_append_iff.2 ⟨hh, kh⟩
  · rw [Item.stream_append, List.length_append, Nat.add_assoc]

theorem Spans.cons {p q r : Nat} {i : Item} {js : List Item} (h : c.Spans p [i] q)
    (k : c.Spans q js r) : c.Spans p (i :: js) r :=
  h.append k

theorem spans_item {p : Nat} {i : Item} {bs : List UInt8} (hi : i.bytes = bs)
    (h : c.Holds p bs) : c.Spans p [i] (p + bs.length) := by
  subst hi
  refine ⟨?_, ?_⟩
  · simpa using h
  · simp

/-- A tag and what stands behind it. -/
theorem spans_tagged {p q : Nat} {i : Item} {t : Tag} {bs : List UInt8}
    (hi : i.bytes = t.toByte :: bs) (ht : c.Holds p [t.toByte]) (hb : c.Holds (p + 1) bs)
    (hq : q = p + 1 + bs.length) : c.Spans p [i] q := by
  have hspan := spans_item hi (holds_cons_iff.2 ⟨ht, hb⟩)
  have hlen : p + (t.toByte :: bs).length = q := by
    rw [List.length_cons]
    omega
  rwa [hlen] at hspan

-- ============================================================================
-- Reads taken apart
-- ============================================================================

/-- A read that goes on succeeds in both parts. -/
theorem Reads.of_bind {p q t : Nat} {x : c.Read α q} {f : α × c.Past q → c.Read β p} {b : β}
    (h : Reads (x >>= f) b t) : ∃ a r hr, Reads x a r ∧ Reads (f (a, ⟨r, hr⟩)) b t := by
  obtain ⟨ht, h⟩ := h
  cases x with
  | error e => cases h
  | ok y =>
    obtain ⟨a, r, hr⟩ := y
    exact ⟨a, r, hr, ⟨hr, rfl⟩, ht, h⟩

theorem Reads.of_pure {p t : Nat} {a b : β} {q : c.Past p}
    (h : Reads (Pure.pure (a, q)) b t) : a = b ∧ q.1 = t := by
  obtain ⟨ht, h⟩ := h
  cases h
  exact ⟨rfl, rfl⟩

theorem not_reads_error {p t : Nat} {f : Failure} {b : β} :
    ¬ Reads (Except.error f : c.Read β p) b t := by
  rintro ⟨_, h⟩
  cases h

theorem not_reads_fail {p t address position : Nat} {cause : Cause} {b : β} :
    ¬ Reads (fail cause address position : c.Read β p) b t :=
  not_reads_error

-- ============================================================================
-- Bytes and numbers
-- ============================================================================

theorem holds_of_take {p n q : Nat} {bs : List UInt8} (h : Reads (c.take n p) bs q) :
    c.Holds p bs ∧ bs.length = n + 1 ∧ q = p + (n + 1) := by
  obtain ⟨hq, h⟩ := h
  unfold take at h
  split at h
  · rename_i hle
    cases h
    refine ⟨?_, ?_, rfl⟩
    · rw [Holds, Array.toList_extract, List.extract_eq_take_drop, Nat.add_sub_cancel_left]
      exact List.take_prefix _ _
    · rw [Array.length_toList, Array.size_extract]
      omega
  · cases h

/-- The bytes of a read are those of the number they stand for. -/
theorem holds_littleEndian_of_take {p n q : Nat} {bs : List UInt8}
    (h : Reads (c.take n p) bs q) :
    c.Holds p (Bytes.littleEndian (n + 1) (Bytes.ofLittleEndian bs)) ∧
      Bytes.ofLittleEndian bs < Nat.pow 256 (n + 1) ∧ q = p + (n + 1) := by
  obtain ⟨hbs, hlen, rfl⟩ := holds_of_take h
  have hlt := Bytes.ofLittleEndian_lt bs
  have hback := Bytes.littleEndian_ofLittleEndian bs
  rw [hlen] at hlt hback
  refine ⟨?_, hlt, rfl⟩
  rw [hback]
  exact hbs

theorem holds_of_byte {p q : Nat} {b : UInt8} (h : Reads (c.byte p) b q) :
    c.Holds p [b] ∧ q = p + 1 := by
  obtain ⟨hq, h⟩ := h
  by_cases hlt : p < c.size
  · rw [byte_of_lt hlt] at h
    cases h
    refine ⟨?_, rfl⟩
    have hdrop := List.drop_eq_getElem_cons (l := c.toList) (i := p) (by simpa using hlt)
    rw [Holds, hdrop]
    exact ⟨_, rfl⟩
  · rw [byte_of_size_le (Nat.not_lt.1 hlt)] at h
    cases h

theorem holds_of_word {p q : Nat} {n : UInt16} (h : Reads (c.word p) n q) :
    c.Holds p (Bytes.littleEndian 2 n.toNat) ∧ q = p + 2 := by
  obtain ⟨bs, r, _, htake, hret⟩ := Reads.of_bind h
  obtain ⟨hbs, hlt, rfl⟩ := holds_littleEndian_of_take htake
  obtain ⟨rfl, rfl⟩ := Reads.of_pure hret
  have hn : (UInt16.ofNat (Bytes.ofLittleEndian bs)).toNat = Bytes.ofLittleEndian bs :=
    UInt16.toNat_ofNat_of_lt' hlt
  refine ⟨?_, rfl⟩
  rw [hn]
  exact hbs

theorem holds_of_number {p q : Nat} {n : Int64} (h : Reads (c.number p) n q) :
    c.Holds p (Bytes.littleEndian 8 n.toUInt64.toNat) ∧ q = p + 8 := by
  obtain ⟨bs, r, _, htake, hret⟩ := Reads.of_bind h
  obtain ⟨hbs, hlt, rfl⟩ := holds_littleEndian_of_take htake
  obtain ⟨rfl, rfl⟩ := Reads.of_pure hret
  have hn : (UInt64.ofNat (Bytes.ofLittleEndian bs)).toInt64.toUInt64.toNat =
      Bytes.ofLittleEndian bs := UInt64.toNat_ofNat_of_lt' hlt
  refine ⟨?_, rfl⟩
  rw [hn]
  exact hbs

/-- A text that is made up of bytes has these bytes. -/
theorem toUTF8_of_fromUTF8? {a : ByteArray} {s : String} (h : String.fromUTF8? a = some s) :
    s.toUTF8 = a := by
  unfold String.fromUTF8? at h
  split at h
  · cases h
    rfl
  · cases h

theorem holds_of_text {p q : Nat} {s : String} (h : Reads (c.text p) s q) :
    Item.textFits s = true ∧ c.Holds p (Item.textBytes s) ∧
      q = p + (Item.textBytes s).length := by
  obtain ⟨size, r, _, hword, h⟩ := Reads.of_bind h
  obtain ⟨hsize, rfl⟩ := holds_of_word hword
  dsimp only at h
  split at h
  · exact absurd h not_reads_fail
  · rename_i n hn
    obtain ⟨bs, t, _, htake, h⟩ := Reads.of_bind h
    obtain ⟨hbs, hlen, rfl⟩ := holds_of_take htake
    dsimp only at h
    split at h
    · rename_i hlast
      split at h
      · rename_i s' hs
        obtain ⟨rfl, hq⟩ := Reads.of_pure h
        -- the bytes of the text are those between its length and its zero byte
        have hbytes : s'.toUTF8.data.toList = bs.dropLast := by
          rw [toUTF8_of_fromUTF8? hs]
        have hutf8 : s'.utf8ByteSize = n := by
          have hcount : s'.toUTF8.data.toList.length = s'.utf8ByteSize := rfl
          rw [← hcount, hbytes, List.length_dropLast, hlen, Nat.add_sub_cancel]
        have hfits : Item.textFits s' = true := by
          have hlt := size.toNat_lt
          simp only [Item.textFits, hutf8, decide_eq_true_eq]
          omega
        have hsplit : bs = s'.toUTF8.data.toList ++ [0] := by
          obtain ⟨front, rfl⟩ := List.getLast?_eq_some_iff.1 hlast
          rw [hbytes, List.dropLast_concat]
        rw [hn] at hsize
        refine ⟨hfits, ?_, ?_⟩
        · rw [Item.textBytes, if_pos hfits, hutf8, List.append_assoc, ← hsplit]
          refine holds_append_iff.2 ⟨hsize, ?_⟩
          rw [Bytes.length_littleEndian]
          exact hbs
        · rw [length_textBytes hfits, hutf8, ← hq]
          simp only [Past.trans]
          omega
      · exact absurd h not_reads_fail
    · exact absurd h not_reads_fail

-- ============================================================================
-- Items
-- ============================================================================

theorem holds_of_expect {p q : Nat} {t : Tag} {u : Unit} (h : Reads (c.expect t p) u q) :
    c.Holds p [t.toByte] ∧ q = p + 1 := by
  obtain ⟨b, r, _, hbyte, h⟩ := Reads.of_bind h
  obtain ⟨hb, rfl⟩ := holds_of_byte hbyte
  dsimp only at h
  split at h
  · rename_i heq
    obtain ⟨_, rfl⟩ := Reads.of_pure h
    rw [← heq]
    exact ⟨hb, rfl⟩
  · exact absurd h not_reads_fail

theorem holds_of_tag {p q : Nat} {t : Tag} (h : Reads (c.tag p) t q) :
    c.Holds p [t.toByte] ∧ q = p + 1 := by
  obtain ⟨b, r, _, hbyte, h⟩ := Reads.of_bind h
  obtain ⟨hb, rfl⟩ := holds_of_byte hbyte
  dsimp only at h
  split at h
  · rename_i t' ht
    obtain ⟨rfl, rfl⟩ := Reads.of_pure h
    rw [← Tag.ofByte?_eq_some_iff.1 ht]
    exact ⟨hb, rfl⟩
  · exact absurd h not_reads_fail

theorem spans_of_opcode {p q : Nat} {o : Opcode} (h : Reads (c.opcode p) o q) :
    c.Spans p [.code o] q := by
  obtain ⟨_, r, _, hexpect, h⟩ := Reads.of_bind h
  obtain ⟨htag, rfl⟩ := holds_of_expect hexpect
  obtain ⟨b, t, _, hbyte, h⟩ := Reads.of_bind h
  obtain ⟨hb, rfl⟩ := holds_of_byte hbyte
  dsimp only at h
  split at h
  · rename_i o' ho
    obtain ⟨rfl, rfl⟩ := Reads.of_pure h
    rw [Opcode.ofByte?_eq_some_iff.1 ho] at hb
    exact spans_tagged rfl htag hb rfl
  · exact absurd h not_reads_fail

theorem Reads.of_tagged {t : Tag} {read : (position : Nat) → c.Read α position} {p q : Nat}
    {a : α} (h : Reads (c.tagged t read p) a q) :
    c.Holds p [t.toByte] ∧ Reads (read (p + 1)) a q := by
  obtain ⟨_, r, _, hexpect, h⟩ := Reads.of_bind h
  obtain ⟨htag, rfl⟩ := holds_of_expect hexpect
  obtain ⟨a', r, hr, hread, h⟩ := Reads.of_bind h
  obtain ⟨rfl, rfl⟩ := Reads.of_pure h
  exact ⟨htag, hread⟩

theorem spans_of_taggedNumber {p q : Nat} {n : Int64} (h : Reads (c.taggedNumber p) n q) :
    c.Spans p [.num n] q := by
  obtain ⟨htag, hnumber⟩ := Reads.of_tagged h
  obtain ⟨hn, rfl⟩ := holds_of_number hnumber
  exact spans_tagged rfl htag hn (by simp)

theorem spans_of_taggedName {p q : Nat} {s : String} (h : Reads (c.taggedName p) s q) :
    Item.textFits s = true ∧ c.Spans p [.var s] q := by
  obtain ⟨htag, htext⟩ := Reads.of_tagged h
  obtain ⟨hfits, hs, rfl⟩ := holds_of_text htext
  exact ⟨hfits, spans_tagged rfl htag hs rfl⟩

theorem spans_of_taggedText {p q : Nat} {s : String} (h : Reads (c.taggedText p) s q) :
    Item.textFits s = true ∧ c.Spans p [.str s] q := by
  obtain ⟨htag, htext⟩ := Reads.of_tagged h
  obtain ⟨hfits, hs, rfl⟩ := holds_of_text htext
  exact ⟨hfits, spans_tagged rfl htag hs rfl⟩

theorem spans_of_word {p q : Nat} {n : UInt16} (h : Reads (c.word p) n q) :
    c.Spans p [.func n] q := by
  obtain ⟨hn, rfl⟩ := holds_of_word h
  have hlen : (Bytes.littleEndian 2 n.toNat).length = 2 := Bytes.length_littleEndian 2 _
  have hspan : c.Spans p [.func n] (p + (Bytes.littleEndian 2 n.toNat).length) :=
    spans_item rfl hn
  rwa [hlen] at hspan

-- ============================================================================
-- Expressions
-- ============================================================================

mutual

theorem spans_of_expression (c : Code) (p : Nat) {e : Expression} {q : Nat}
    (h : Reads (c.expression p) e q) : e.Legible ∧ c.Spans p e.items q := by
  rw [expression] at h
  obtain ⟨o, r, hr, ho, h⟩ := Reads.of_bind h
  obtain ⟨hleg, hspan⟩ := spans_of_operand c p ho
  obtain ⟨b, t, ht, hbyte, h⟩ := Reads.of_bind h
  obtain ⟨hb, rfl⟩ := holds_of_byte hbyte
  dsimp only at h
  split at h
  · exact absurd h not_reads_error
  · rename_i hop
    obtain ⟨rfl, rfl⟩ := Reads.of_pure h
    rw [Operator.ofByte?_eq_some_iff.1 hop] at hb
    exact ⟨hleg, hspan.append (spans_item (i := .operator .close) rfl hb)⟩
  · rename_i op hclose hop
    obtain ⟨rest, u, _, hrest, h⟩ := Reads.of_bind h
    obtain ⟨rfl, rfl⟩ := Reads.of_pure h
    have hlt : c.size - (r + 1) < c.size - p := by omega
    obtain ⟨hrl, hrspan⟩ := spans_of_expression c (r + 1) hrest
    rw [Operator.ofByte?_eq_some_iff.1 hop] at hb
    exact ⟨⟨fun heq => hclose heq, hleg, hrl⟩,
      hspan.append ((spans_item (i := .operator op) rfl hb).cons hrspan)⟩
termination_by (c.size - p, 1)
decreasing_by
  · exact Prod.Lex.right _ (by omega)
  · exact Prod.Lex.left _ _ hlt

theorem spans_of_operand (c : Code) (p : Nat) {o : Operand} {q : Nat}
    (h : Reads (c.operand p) o q) : o.Legible ∧ c.Spans p o.items q := by
  rw [operand] at h
  obtain ⟨tag, r, hr, htag, h⟩ := Reads.of_bind h
  obtain ⟨ht, rfl⟩ := holds_of_tag htag
  cases tag with
  | str =>
    obtain ⟨s, t, _, htext, h⟩ := Reads.of_bind h
    obtain ⟨hfits, hs, rfl⟩ := holds_of_text htext
    obtain ⟨rfl, rfl⟩ := Reads.of_pure h
    exact ⟨hfits, spans_tagged (i := .str s) rfl ht hs rfl⟩
  | num =>
    obtain ⟨n, t, _, hnumber, h⟩ := Reads.of_bind h
    obtain ⟨hn, rfl⟩ := holds_of_number hnumber
    obtain ⟨rfl, rfl⟩ := Reads.of_pure h
    exact ⟨trivial, spans_tagged (i := .num n) rfl ht hn (by simp [Past.trans])⟩
  | var =>
    obtain ⟨s, t, _, htext, h⟩ := Reads.of_bind h
    obtain ⟨hfits, hs, rfl⟩ := holds_of_text htext
    obtain ⟨rfl, rfl⟩ := Reads.of_pure h
    exact ⟨hfits, spans_tagged (i := .var s) rfl ht hs rfl⟩
  | call =>
    obtain ⟨opcode, t, hot, hopcode, h⟩ := Reads.of_bind h
    dsimp only at h
    split at h
    · rename_i heq
      subst heq
      obtain ⟨code, u, hcu, hcode, h⟩ := Reads.of_bind h
      obtain ⟨as, v, _, hargs, h⟩ := Reads.of_bind h
      obtain ⟨rfl, rfl⟩ := Reads.of_pure h
      have hlt : c.size - u < c.size - p := by
        dsimp only at hot hcu
        omega
      obtain ⟨hal, haspan⟩ := spans_of_args c u hargs
      have hmark : c.Spans p [.call] (p + 1) := spans_item (i := .call) rfl ht
      exact ⟨hal, hmark.cons ((spans_of_opcode hopcode).cons ((spans_of_word hcode).cons haspan))⟩
    · exact absurd h not_reads_fail
  | code => exact absurd h not_reads_fail
termination_by (c.size - p, 0)
decreasing_by exact Prod.Lex.left _ _ hlt

theorem spans_of_args (c : Code) (p : Nat) {as : Args} {q : Nat} (h : Reads (c.args p) as q) :
    as.Legible ∧ c.Spans p as.items q := by
  rw [args] at h
  obtain ⟨b, r, hr, hbyte, h⟩ := Reads.of_bind h
  obtain ⟨hb, rfl⟩ := holds_of_byte hbyte
  dsimp only at h
  split at h
  · rename_i heq
    obtain ⟨rfl, rfl⟩ := Reads.of_pure h
    rw [heq] at hb
    exact ⟨trivial, spans_item (i := .paramsEnd) rfl hb⟩
  · split at h
    · exact absurd h not_reads_error
    · rename_i param hparam
      obtain ⟨e, t, het, he, h⟩ := Reads.of_bind h
      obtain ⟨rest, u, _, hrest, h⟩ := Reads.of_bind h
      obtain ⟨rfl, rfl⟩ := Reads.of_pure h
      obtain ⟨rfl, hemit⟩ := Param.ofByte?_eq_some_iff.1 hparam
      have hlt : c.size - (p + 1) < c.size - p := by omega
      obtain ⟨hel, hespan⟩ := spans_of_expression c (p + 1) he
      have hlt' : c.size - t < c.size - p := by omega
      obtain ⟨hrl, hrspan⟩ := spans_of_args c t hrest
      have hmark : c.Spans p [.param param] (p + 1) := spans_item (i := .param param) rfl hb
      exact ⟨⟨hemit, hel, hrl⟩, hmark.cons (hespan.append hrspan)⟩
termination_by (c.size - p, 0)
decreasing_by
  · exact Prod.Lex.left _ _ hlt
  · exact Prod.Lex.left _ _ hlt'

end

-- ============================================================================
-- Instructions
-- ============================================================================

theorem spans_of_assignment {p q : Nat} {how : Assignment} {i : Instruction}
    (h : Reads (c.assignment how p) i q) :
    i.Legible ∧ ∃ rest, i.items = .code how.opcode :: rest ∧ c.Spans p rest q := by
  obtain ⟨name, r, _, hname, h⟩ := Reads.of_bind h
  obtain ⟨hfits, hspan⟩ := spans_of_taggedName hname
  obtain ⟨e, t, _, he, h⟩ := Reads.of_bind h
  obtain ⟨hel, hespan⟩ := spans_of_expression c r he
  obtain ⟨rfl, rfl⟩ := Reads.of_pure h
  exact ⟨⟨hfits, hel⟩, _, rfl, hspan.cons hespan⟩

/-- What follows an opcode. -/
theorem spans_of_operands {p : Nat} {o : Opcode} {i : Instruction}
    {q : { q : Nat // p ≤ q ∧ q ≤ max p c.size }} (h : c.operands o p = .ok (i, q)) :
    i.Legible ∧ ∃ rest, i.items = .code o :: rest ∧ c.Spans p rest q.1 := by
  cases o with
  | stop =>
    cases h
    exact ⟨trivial, _, rfl, spans_nil c p⟩
  | mov | add | sub | mul | div | mod =>
    obtain ⟨⟨j, r, hr⟩, hj, h⟩ := except_bind_eq_ok h
    cases h
    exact spans_of_assignment ⟨hr, hj⟩
  | inc | dec | push | pop =>
    obtain ⟨⟨name, r, hr⟩, hname, h⟩ := except_bind_eq_ok h
    cases h
    obtain ⟨hfits, hspan⟩ := spans_of_taggedName ⟨hr, hname⟩
    exact ⟨hfits, _, rfl, hspan⟩
  | cmp | case =>
    obtain ⟨⟨e, r, hr⟩, he, h⟩ := except_bind_eq_ok h
    obtain ⟨⟨n, t, ht⟩, hn, h⟩ := except_bind_eq_ok h
    cases h
    obtain ⟨hel, hespan⟩ := spans_of_expression c p ⟨hr, he⟩
    exact ⟨hel, _, rfl, hespan.append (spans_of_taggedNumber ⟨ht, hn⟩)⟩
  | goto =>
    obtain ⟨⟨n, r, hr⟩, hn, h⟩ := except_bind_eq_ok h
    cases h
    exact ⟨trivial, _, rfl, spans_of_taggedNumber ⟨hr, hn⟩⟩
  | func =>
    obtain ⟨⟨code, r, hr⟩, hcode, h⟩ := except_bind_eq_ok h
    obtain ⟨⟨as, t, ht⟩, has, h⟩ := except_bind_eq_ok h
    cases h
    obtain ⟨hal, haspan⟩ := spans_of_args c r ⟨ht, has⟩
    exact ⟨hal, _, rfl, (spans_of_word ⟨hr, hcode⟩).cons haspan⟩

/-- A decoded instruction stands where it was decoded. -/
theorem has_of_instruction {p q : Nat} {i : Instruction} (h : Reads (c.instruction p) i q) :
    c.Has p i q := by
  obtain ⟨o, r, _, ho, h⟩ := Reads.of_bind h
  obtain ⟨hq, h⟩ := h
  obtain ⟨⟨j, t⟩, hj, h⟩ := except_bind_eq_ok h
  obtain ⟨hleg, rest, hitems, hrest⟩ := spans_of_operands hj
  cases h
  obtain ⟨hholds, hfinish⟩ := (spans_of_opcode ho).cons hrest
  rw [← hitems] at hholds hfinish
  exact ⟨hleg, hholds, hfinish⟩

/-- An instruction is decoded at a position just when it stands there. -/
theorem reads_instruction_iff {p q : Nat} {i : Instruction} :
    Reads (c.instruction p) i q ↔ c.Has p i q := by
  refine ⟨has_of_instruction, ?_⟩
  rintro ⟨hleg, hholds, rfl⟩
  exact instruction_of_holds hleg hholds

-- ============================================================================
-- Streams
-- ============================================================================

/-- What is left of a stream decodes to instructions whose bytes it is. -/
theorem of_instructionsFrom (c : Code) (done : List (Nat × Instruction)) (p : Nat)
    {l : List (Nat × Instruction)} (h : c.instructionsFrom done p = .ok l) (hp : p ≤ c.size) :
    ∃ is : List Instruction, (∀ i ∈ is, i.Legible) ∧ c.Holds p (Instruction.stream is) ∧
      p + (Instruction.stream is).length = c.size ∧
      l = done.reverse ++ Instruction.located p is := by
  rw [instructionsFrom] at h
  split at h
  · rename_i hat
    have hle : c.size ≤ p := by simpa [atEnd] using hat
    cases h
    refine ⟨[], by simp, holds_nil c p, ?_, ?_⟩
    · simp only [Instruction.stream_nil, List.length_nil]
      omega
    · rw [Instruction.located, List.append_nil]
  · obtain ⟨⟨i, q, hq⟩, hi, h⟩ := except_bind_eq_ok h
    obtain ⟨hleg, hholds, hnext⟩ := has_of_instruction ⟨hq, hi⟩
    obtain ⟨is, hl, hrest, hend, hlist⟩ := of_instructionsFrom c ((p, i) :: done) q h hq.2
    subst hnext
    refine ⟨i :: is, ?_, ?_, ?_, ?_⟩
    · intro j hj
      rcases List.mem_cons.1 hj with rfl | hj
      · exact hleg
      · exact hl j hj
    · rw [Instruction.stream_cons]
      exact holds_append_iff.2 ⟨hholds, hrest⟩
    · rw [Instruction.stream_cons, List.length_append]
      omega
    · rw [hlist, List.reverse_cons, List.append_assoc, List.singleton_append, Instruction.located]
termination_by c.size - p
decreasing_by omega

/-- A stream decodes to a list just when it is the bytes of legible instructions and
these, with their addresses, are the list. -/
theorem instructions_eq_ok_iff {l : List (Nat × Instruction)} :
    c.instructions = .ok l ↔ ∃ is : List Instruction, (∀ i ∈ is, i.Legible) ∧
      c.toList = Instruction.stream is ∧ l = Instruction.located 0 is := by
  constructor
  · intro h
    obtain ⟨is, hl, ⟨behind, hholds⟩, hend, hlist⟩ := of_instructionsFrom c [] 0 h (Nat.zero_le _)
    have hnil : behind = [] := by
      have hlen := congrArg List.length hholds
      have hsize : c.toList.length = c.size := Array.length_toList
      rw [List.length_append, List.drop_zero] at hlen
      exact List.eq_nil_of_length_eq_zero (by omega)
    refine ⟨is, hl, ?_, hlist⟩
    rw [← List.drop_zero (l := c.toList), ← hholds, hnil, List.append_nil]
  · rintro ⟨is, hl, hbytes, rfl⟩
    exact instructions_of_toList hl hbytes

end Code

end ScriptMachine
