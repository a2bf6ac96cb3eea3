/-
  ScriptMachine.Proofs.Codec

  Writing and reading items undo each other.  Each kind of item has one read that
  matches it (`Code.content`).  Items that were written whole are read back in
  order, up to the end of the stream; and a stream that was read to its end is what
  writing the items read gives again (`Code.items_codec`).

  A read of a mark gives more than the mark: the mark of a call is read as a tag and
  the end of arguments as a byte, and of these only one tag and one byte are written.
-/

import ScriptMachine.Proofs.Decoding
import ScriptMachine.Proofs.Emission

namespace ScriptMachine

-- ============================================================================
-- Items and what is read of them
-- ============================================================================

/-- Kinds of item, one for each way of writing. -/
inductive Item.Kind where
  | code | var | str | num | call | operator | func | param | paramsEnd
  deriving DecidableEq, Repr

/-- Kind of an item. -/
def Item.kind : Item → Item.Kind
  | code _ => .code
  | var _ => .var
  | str _ => .str
  | num _ => .num
  | call => .call
  | operator _ => .operator
  | func _ => .func
  | param _ => .param
  | paramsEnd => .paramsEnd

/-- Only parameter types that describe an argument are written. -/
def Item.isEmitted : Item → Bool
  | param p => p.isEmitted
  | _ => true

/-- What the read of an item gives. -/
inductive Content where
  | opcode (o : Opcode)
  | name (s : String)
  | text (s : String)
  | number (n : Int64)
  | tag (t : Tag)
  | operator (op : Operator)
  | word (n : UInt16)
  | param (p : Param)
  | byte (b : UInt8)
  deriving DecidableEq

/-- What is read of an item. -/
def Item.content : Item → Content
  | code o => .opcode o
  | var s => .name s
  | str s => .text s
  | num n => .number n
  | call => .tag .call
  | operator op => .operator op
  | func n => .word n
  | param p => .param p
  | paramsEnd => .byte ScriptMachine.paramsEnd

/-- The item of which something was read, if it is one that can be written. -/
def Content.item? : Content → Option Item
  | opcode o => some (.code o)
  | name s => some (.var s)
  | text s => some (.str s)
  | number n => some (.num n)
  | tag .call => some .call
  | tag _ => none
  | operator op => some (.operator op)
  | word n => some (.func n)
  | param p => some (.param p)
  | byte b => if b = paramsEnd then some .paramsEnd else none

/-- What is read of a written item says which item it was. -/
@[simp] theorem Item.item?_content (i : Item) : i.content.item? = some i := by
  cases i <;> rfl

/-- A text is written whole when it has fewer than 65535 bytes. -/
theorem Item.textFits_iff {s : String} : Item.textFits s = true ↔ s.utf8ByteSize < 65535 := by
  simp only [Item.textFits, decide_eq_true_eq]
  omega

theorem Item.check_str_iff {s : String} : (Item.str s).check = .ok () ↔ Item.textFits s = true :=
  Item.check_var_iff

namespace Code

variable {c : Code}

/-- The read that matches the writing of a kind of item. -/
def content (c : Code) (k : Item.Kind) (p : Nat) : c.Read Content p :=
  match k with
  | .code => do let (o, q) ← c.opcode p; return (.opcode o, q)
  | .var => do let (s, q) ← c.taggedName p; return (.name s, q)
  | .str => do let (s, q) ← c.taggedText p; return (.text s, q)
  | .num => do let (n, q) ← c.taggedNumber p; return (.number n, q)
  | .call => do let (t, q) ← c.tag p; return (.tag t, q)
  | .operator => do
    let (b, q) ← c.byte p
    match Operator.ofByte? b with
    | some op => return (.operator op, q)
    | none => fail (.unknownOperator b) p q
  | .func => do let (n, q) ← c.word p; return (.word n, q)
  | .param => do
    let (b, q) ← c.byte p
    match Param.ofByte? b with
    | some param => return (.param param, q)
    | none => fail (.unknownParam b) p q
  | .paramsEnd => do let (b, q) ← c.byte p; return (.byte b, q)

/-- Reads items of the given kinds, one behind the other; gives what was read and
where reading ended. -/
def contents (c : Code) : List Item.Kind → Nat → Except Failure (List Content × Nat)
  | [], p => return ([], p)
  | k :: ks, p => do
    let (x, q) ← c.content k p
    let (xs, r) ← c.contents ks q
    return (x :: xs, r)

-- ============================================================================
-- One item
-- ============================================================================

/-- An item that was written whole is read back. -/
theorem content_of_holds {p : Nat} {i : Item} (hi : i.check = .ok ()) (he : i.isEmitted = true)
    (h : c.Holds p i.bytes) : Reads (c.content i.kind p) i.content (p + i.bytes.length) := by
  cases i with
  | code o => exact (opcode_of_holds h).bind fun _ => .pure rfl
  | var s =>
    exact (taggedName_of_holds (Item.textFits_of_check_var hi) h).bind fun _ => .pure rfl
  | str s =>
    exact (taggedText_of_holds (Item.textFits_of_check_str hi) h).bind fun _ => .pure rfl
  | num n =>
    have hlen : (Item.bytes (.num n)).length = 9 := by simp [Item.bytes]
    rw [hlen]
    exact (taggedNumber_of_holds h).bind fun _ => .pure rfl
  | call => exact (tag_of_holds (t := .call) h).bind fun _ => .pure rfl
  | operator op =>
    refine (byte_of_holds (b := op.toByte) h).bind fun _ => ?_
    simp only [Operator.ofByte?_toByte]
    exact .pure rfl
  | func n =>
    have hlen : (Item.bytes (.func n)).length = 2 := by simp [Item.bytes]
    rw [hlen]
    exact (word_of_holds h).bind fun _ => .pure rfl
  | param param =>
    have hof : Param.ofByte? param.toByte = some param := Param.ofByte?_eq_some_iff.2 ⟨rfl, he⟩
    refine (byte_of_holds (b := param.toByte) h).bind fun _ => ?_
    simp only [hof]
    exact .pure rfl
  | paramsEnd => exact (byte_of_holds (b := paramsEnd) h).bind fun _ => .pure rfl

/-- An item of which something was read could be written, and its bytes are those
that the read went over. -/
theorem spans_of_content {p q : Nat} {k : Item.Kind} {x : Content} {i : Item}
    (h : Reads (c.content k p) x q) (hx : x.item? = some i) :
    i.kind = k ∧ i.check = .ok () ∧ i.isEmitted = true ∧ c.Spans p [i] q := by
  cases k with
  | code =>
    obtain ⟨o, r, _, ho, h⟩ := Reads.of_bind h
    obtain ⟨rfl, rfl⟩ := Reads.of_pure h
    cases hx
    exact ⟨rfl, rfl, rfl, spans_of_opcode ho⟩
  | var =>
    obtain ⟨s, r, _, hs, h⟩ := Reads.of_bind h
    obtain ⟨rfl, rfl⟩ := Reads.of_pure h
    cases hx
    obtain ⟨hfits, hspan⟩ := spans_of_taggedName hs
    exact ⟨rfl, Item.check_var_iff.2 hfits, rfl, hspan⟩
  | str =>
    obtain ⟨s, r, _, hs, h⟩ := Reads.of_bind h
    obtain ⟨rfl, rfl⟩ := Reads.of_pure h
    cases hx
    obtain ⟨hfits, hspan⟩ := spans_of_taggedText hs
    exact ⟨rfl, Item.check_str_iff.2 hfits, rfl, hspan⟩
  | num =>
    obtain ⟨n, r, _, hn, h⟩ := Reads.of_bind h
    obtain ⟨rfl, rfl⟩ := Reads.of_pure h
    cases hx
    exact ⟨rfl, rfl, rfl, spans_of_taggedNumber hn⟩
  | call =>
    obtain ⟨t, r, _, ht, h⟩ := Reads.of_bind h
    obtain ⟨rfl, rfl⟩ := Reads.of_pure h
    obtain ⟨hb, rfl⟩ := holds_of_tag ht
    cases t with
    | call =>
      cases hx
      exact ⟨rfl, rfl, rfl, spans_item (i := .call) rfl hb⟩
    | _ => cases hx
  | operator =>
    obtain ⟨b, r, _, hbyte, h⟩ := Reads.of_bind h
    obtain ⟨hb, rfl⟩ := holds_of_byte hbyte
    dsimp only at h
    split at h
    · rename_i op hop
      obtain ⟨rfl, rfl⟩ := Reads.of_pure h
      cases hx
      rw [Operator.ofByte?_eq_some_iff.1 hop] at hb
      exact ⟨rfl, rfl, rfl, spans_item (i := .operator op) rfl hb⟩
    · exact absurd h not_reads_fail
  | func =>
    obtain ⟨n, r, _, hn, h⟩ := Reads.of_bind h
    obtain ⟨rfl, rfl⟩ := Reads.of_pure h
    cases hx
    exact ⟨rfl, rfl, rfl, spans_of_word hn⟩
  | param =>
    obtain ⟨b, r, _, hbyte, h⟩ := Reads.of_bind h
    obtain ⟨hb, rfl⟩ := holds_of_byte hbyte
    dsimp only at h
    split at h
    · rename_i param hparam
      obtain ⟨rfl, rfl⟩ := Reads.of_pure h
      cases hx
      obtain ⟨rfl, hemit⟩ := Param.ofByte?_eq_some_iff.1 hparam
      exact ⟨rfl, rfl, hemit, spans_item (i := .param param) rfl hb⟩
    · exact absurd h not_reads_fail
  | paramsEnd =>
    obtain ⟨b, r, _, hbyte, h⟩ := Reads.of_bind h
    obtain ⟨rfl, rfl⟩ := Reads.of_pure h
    obtain ⟨hb, rfl⟩ := holds_of_byte hbyte
    simp only [Content.item?, Option.ite_none_right_eq_some] at hx
    obtain ⟨rfl, heq⟩ := hx
    cases heq
    exact ⟨rfl, rfl, rfl, spans_item (i := .paramsEnd) rfl hb⟩

-- ============================================================================
-- Sequences of items
-- ============================================================================

theorem contents_of_holds {p : Nat} {is : List Item}
    (hi : ∀ i ∈ is, i.check = .ok () ∧ i.isEmitted = true) (h : c.Holds p (Item.stream is)) :
    c.contents (is.map Item.kind) p =
      .ok (is.map Item.content, p + (Item.stream is).length) := by
  induction is generalizing p with
  | nil => rfl
  | cons i is ih =>
    rw [Item.stream_cons] at h
    obtain ⟨hok, hemit⟩ := hi i List.mem_cons_self
    obtain ⟨_, hread⟩ := content_of_holds hok hemit h.append_left
    have hrest := ih (fun j hj => hi j (List.mem_cons_of_mem _ hj)) h.append_right
    rw [List.map_cons, contents, hread]
    simp only [bind, Except.bind, hrest]
    rw [Item.stream_cons, List.length_append, Nat.add_assoc]
    rfl

theorem spans_of_contents {p q : Nat} {ks : List Item.Kind} {xs : List Content}
    {is : List Item} (h : c.contents ks p = .ok (xs, q)) (hx : xs.mapM Content.item? = some is) :
    (∀ i ∈ is, i.check = .ok () ∧ i.isEmitted = true) ∧ is.map Item.kind = ks ∧
      c.Spans p is q := by
  induction ks generalizing p xs is with
  | nil =>
    cases h
    cases hx
    exact ⟨by simp, rfl, spans_nil c _⟩
  | cons k ks ih =>
    obtain ⟨⟨x, r, hr⟩, hread, h⟩ := except_bind_eq_ok h
    obtain ⟨⟨ys, t⟩, hrest, h⟩ := except_bind_eq_ok h
    cases h
    simp only [List.mapM_cons, Option.bind_eq_bind, Option.bind_eq_some_iff, Option.pure_def,
      Option.some.injEq] at hx
    obtain ⟨i, hxi, js, hjs, rfl⟩ := hx
    obtain ⟨rfl, hok, hemit, hspan⟩ := spans_of_content ⟨hr, hread⟩ hxi
    obtain ⟨hall, rfl, hspans⟩ := ih hrest hjs
    refine ⟨?_, rfl, hspan.cons hspans⟩
    intro j hj
    rcases List.mem_cons.1 hj with rfl | hj
    · exact ⟨hok, hemit⟩
    · exact hall j hj

/-- Items that span a whole stream are its bytes. -/
theorem Spans.toList_eq {is : List Item} {q : Nat} (h : c.Spans 0 is q) (hq : c.atEnd q = true) :
    c.toList = Item.stream is := by
  obtain ⟨⟨behind, hbytes⟩, hfinish⟩ := h
  rw [List.drop_zero] at hbytes
  have hle : c.size ≤ q := by simpa [atEnd] using hq
  have hsize : c.toList.length = c.size := Array.length_toList
  have hlen := congrArg List.length hbytes
  rw [List.length_append] at hlen
  have hnil : behind = [] := List.eq_nil_of_length_eq_zero (by omega)
  rw [← hbytes, hnil, List.append_nil]

/-- Writing and reading items undo each other.

* Items that are all written whole, into an empty program with any listing, are
  read back in order by the reads that match them, and reading ends at the end.
* Writing a name or a text fails exactly when it has 65535 bytes or more.
* Whatever reads go over a stream to its end, writing what they gave, as far as it
  can be written, succeeds and gives the same stream. -/
theorem items_codec (listing : Listing) :
    (∀ items : List Item, (∀ i ∈ items, i.check = .ok () ∧ i.isEmitted = true) →
      ∃ q, (Program.writeAll { listing } items).code.contents (items.map Item.kind) 0 =
          .ok (items.map Item.content, q) ∧
        (Program.writeAll { listing } items).code.atEnd q = true) ∧
    (∀ s : String, ((Item.var s).check = .ok () ↔ s.utf8ByteSize < 65535) ∧
      ((Item.str s).check = .ok () ↔ s.utf8ByteSize < 65535)) ∧
    (∀ (c : Code) (kinds : List Item.Kind) (xs : List Content) (q : Nat) (items : List Item),
      c.contents kinds 0 = .ok (xs, q) → c.atEnd q = true →
      xs.mapM Content.item? = some items →
      (∀ i ∈ items, i.check = .ok () ∧ i.isEmitted = true) ∧ items.map Item.kind = kinds ∧
        (Program.writeAll { listing } items).code = c) := by
  have hwritten : ∀ items : List Item,
      (Program.writeAll { listing } items).code.toList = Item.stream items := fun items => by
    rw [Program.toList_writeAll]
    rfl
  refine ⟨fun items hitems => ?_, fun s => ⟨?_, ?_⟩, fun c kinds xs q items hread hend hxs => ?_⟩
  · have hholds : (Program.writeAll { listing } items).code.Holds 0 (Item.stream items) :=
      @holds_of_toList _ [] _ [] (by rw [hwritten]; simp)
    refine ⟨_, contents_of_holds hitems hholds, ?_⟩
    have hsize : (Program.writeAll { listing } items).code.size = (Item.stream items).length := by
      rw [← hwritten, Array.length_toList]
    simp [atEnd, hsize]
  · exact Item.check_var_iff.trans Item.textFits_iff
  · exact Item.check_str_iff.trans Item.textFits_iff
  · obtain ⟨hall, hkinds, hspans⟩ := spans_of_contents hread hxs
    refine ⟨hall, hkinds, ?_⟩
    apply Array.toList_inj.1
    rw [hwritten, hspans.toList_eq hend]

/-- One item of each kind: an assignment of a sum that ends in a call. -/
def sampleItems : List Item :=
  [.code .mov, .var "größe", .str "a\x00b", .operator .add, .num (-5), .operator .mul, .call,
    .code .func, .func 513, .param .optional, .var "NULL", .operator .close, .paramsEnd,
    .operator .close]

theorem sampleItems_codec :
    (∀ i ∈ sampleItems, i.check = .ok () ∧ i.isEmitted = true) ∧
    (∃ q, (Program.writeAll { listing := {} } sampleItems).code.contents
          (sampleItems.map Item.kind) 0 = .ok (sampleItems.map Item.content, q) ∧
        (Program.writeAll { listing := {} } sampleItems).code.atEnd q = true) ∧
    Code.contents #[0x66, 0x3B] [.call, .paramsEnd] 0 = .ok ([.tag .call, .byte 0x3B], 2) ∧
    (Program.writeAll { listing := {} } [.call, .paramsEnd]).code = #[0x66, 0x3B] := by
  have hall : ∀ i ∈ sampleItems, i.check = .ok () ∧ i.isEmitted = true := by
    intro i hi
    simp only [sampleItems, List.mem_cons, List.not_mem_nil, or_false] at hi
    rcases hi with rfl | rfl | rfl | rfl | rfl | rfl | rfl | rfl | rfl | rfl | rfl | rfl |
      rfl | rfl <;>
      exact ⟨rfl, rfl⟩
  obtain ⟨hread, _, hwrite⟩ := items_codec {}
  have hmarks : Code.contents #[0x66, 0x3B] [.call, .paramsEnd] 0 =
      .ok ([.tag .call, .byte 0x3B], 2) := rfl
  exact ⟨hall, hread sampleItems hall, hmarks, (hwrite _ _ _ _ _ hmarks rfl rfl).2.2⟩

end Code

end ScriptMachine
