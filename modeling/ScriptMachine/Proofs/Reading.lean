/-
  ScriptMachine.Proofs.Reading

  What is written can be read back.  `Code.Holds c p bs` says that the bytes `bs`
  stand in the stream `c` from position `p` on; every reader of the stream, run
  at the position of an item, gives the content of the item and the position
  right behind its bytes.
-/

import Mathlib.Data.List.Basic
import ScriptMachine.Stream.Reading

namespace ScriptMachine

namespace Code

/-! ## Bytes at a position -/

/-- The bytes `bs` stand in the stream from `position` on. -/
def Holds (c : Code) (position : Nat) (bs : List UInt8) : Prop :=
  bs <+: c.toList.drop position

/-- Bytes written behind a list of bytes stand at its length. -/
theorem holds_of_toList {c : Code} {before bs behind : List UInt8}
    (h : c.toList = before ++ bs ++ behind) : c.Holds before.length bs := by
  refine ⟨behind, ?_⟩
  rw [h, List.append_assoc, List.drop_left]

theorem holds_nil (c : Code) (position : Nat) : c.Holds position [] :=
  List.nil_prefix

theorem holds_append_iff {c : Code} {position : Nat} {as bs : List UInt8} :
    c.Holds position (as ++ bs) ↔ c.Holds position as ∧ c.Holds (position + as.length) bs := by
  constructor
  · rintro ⟨behind, h⟩
    refine ⟨⟨bs ++ behind, by rw [← h, List.append_assoc]⟩, behind, ?_⟩
    rw [← List.drop_drop, ← h, List.append_assoc, List.drop_left]
  · rintro ⟨⟨rest, ha⟩, behind, hb⟩
    refine ⟨behind, ?_⟩
    rw [← List.drop_drop, ← ha, List.drop_left] at hb
    rw [← ha, ← hb, List.append_assoc]

theorem holds_cons_iff {c : Code} {position : Nat} {b : UInt8} {bs : List UInt8} :
    c.Holds position (b :: bs) ↔ c.Holds position [b] ∧ c.Holds (position + 1) bs :=
  @holds_append_iff c position [b] bs

theorem Holds.append_left {c : Code} {position : Nat} {as bs : List UInt8}
    (h : c.Holds position (as ++ bs)) : c.Holds position as :=
  (holds_append_iff.1 h).1

theorem Holds.append_right {c : Code} {position : Nat} {as bs : List UInt8}
    (h : c.Holds position (as ++ bs)) : c.Holds (position + as.length) bs :=
  (holds_append_iff.1 h).2

/-- Bytes that stand in a stream lie inside it. -/
theorem Holds.le_size {c : Code} {position : Nat} {bs : List UInt8} (h : c.Holds position bs)
    (hne : bs ≠ []) : position + bs.length ≤ c.size := by
  have hpos := List.length_pos_iff.2 hne
  have hle : bs.length ≤ c.toList.length - position := by
    rw [← List.length_drop]
    exact List.IsPrefix.length_le h
  have hsize : c.toList.length = c.size := Array.length_toList
  omega

/-! ## Reading bytes -/

/-- The read gives `a` and ends at `q`. -/
def Reads {c : Code} {α : Type} {position : Nat} (r : c.Read α position) (a : α) (q : Nat) : Prop :=
  ∃ h, r = .ok (a, ⟨q, h⟩)

/-- A read, and what goes on behind it. -/
theorem Reads.bind {c : Code} {α β : Type} {p q r t : Nat} {x : c.Read α q} {a : α} {b : β}
    {f : α × c.Past q → c.Read β p} (h : Reads x a r) (hf : ∀ hr, Reads (f (a, ⟨r, hr⟩)) b t) :
    Reads (x >>= f) b t := by
  obtain ⟨hr, rfl⟩ := h
  exact hf hr

/-- The end of a read. -/
theorem Reads.pure {c : Code} {β : Type} {p t : Nat} {b : β} {q : c.Past p} (h : q.1 = t) :
    Reads (Pure.pure (b, q)) b t := by
  subst h
  exact ⟨q.2, rfl⟩

theorem take_of_holds {c : Code} {position n : Nat} {bs : List UInt8} (h : c.Holds position bs)
    (hn : bs.length = n + 1) : Reads (c.take n position) bs (position + (n + 1)) := by
  have hle : position + (n + 1) ≤ c.size := by
    rw [← hn]
    exact h.le_size (by intro hb; simp [hb] at hn)
  have hbytes : (c.extract position (position + (n + 1))).toList = bs := by
    obtain ⟨behind, hb⟩ := h
    rw [Array.toList_extract, List.extract_eq_take_drop, ← hb, Nat.add_sub_cancel_left, ← hn,
      List.take_left]
  refine ⟨⟨by omega, hle⟩, ?_⟩
  rw [take, dif_pos hle]
  simp only [hbytes]

theorem byte_of_holds {c : Code} {position : Nat} {b : UInt8} (h : c.Holds position [b]) :
    Reads (c.byte position) b (position + 1) := by
  have hlt : position < c.size := h.le_size (by simp)
  obtain ⟨behind, hb⟩ := h
  have hget : getElem c position hlt = b := by
    have hdrop := List.drop_eq_getElem_cons (l := c.toList) (i := position) (by simpa using hlt)
    rw [hdrop] at hb
    simpa using (List.cons.inj hb).1.symm
  refine ⟨⟨by omega, hlt⟩, ?_⟩
  rw [byte_of_lt hlt, hget]

theorem word_of_holds {c : Code} {position : Nat} {n : UInt16}
    (h : c.Holds position (Bytes.littleEndian 2 n.toNat)) :
    Reads (c.word position) n (position + 2) := by
  have hn : UInt16.ofNat (Bytes.ofLittleEndian (Bytes.littleEndian 2 n.toNat)) = n := by
    rw [Bytes.ofLittleEndian_littleEndian]
    have hlt := n.toNat_lt
    rw [Nat.mod_eq_of_lt (by exact hlt)]
    exact UInt16.ofNat_toNat
  refine (take_of_holds (n := 1) h (by simp)).bind fun _ => ?_
  simp only [hn]
  exact .pure rfl

theorem number_of_holds {c : Code} {position : Nat} {n : Int64}
    (h : c.Holds position (Bytes.littleEndian 8 n.toUInt64.toNat)) :
    Reads (c.number position) n (position + 8) := by
  have hn : (UInt64.ofNat (Bytes.ofLittleEndian
      (Bytes.littleEndian 8 n.toUInt64.toNat))).toInt64 = n := by
    rw [Bytes.ofLittleEndian_littleEndian]
    have hlt := n.toUInt64.toNat_lt
    rw [Nat.mod_eq_of_lt (by exact hlt), UInt64.ofNat_toNat]
    rfl
  refine (take_of_holds (n := 7) h (by simp)).bind fun _ => ?_
  simp only [hn]
  exact .pure rfl

/-! ## Reading texts -/

/-- The bytes of a text make up the text again. -/
theorem string_of_utf8 (s : String) : String.fromUTF8? s.toUTF8 = some s := by
  have hvalid : s.toUTF8.IsValidUTF8 := s.isValidUTF8
  rw [String.fromUTF8?, dif_pos hvalid]
  rfl

theorem length_textBytes {s : String} (h : Item.textFits s = true) :
    (Item.textBytes s).length = s.utf8ByteSize + 3 := by
  have hsize : s.toUTF8.data.toList.length = s.utf8ByteSize := rfl
  rw [Item.textBytes, if_pos h]
  simp only [List.length_append, Bytes.length_littleEndian, hsize, List.length_singleton]
  omega

theorem text_of_holds {c : Code} {position : Nat} {s : String} (hs : Item.textFits s = true)
    (h : c.Holds position (Item.textBytes s)) :
    Reads (c.text position) s (position + (Item.textBytes s).length) := by
  have hlen := length_textBytes hs
  have hsize : s.utf8ByteSize + 1 ≤ 65535 := by simpa [Item.textFits] using hs
  rw [Item.textBytes, if_pos hs, List.append_assoc] at h
  -- the length in front of the text
  have hword : (UInt16.ofNat (s.utf8ByteSize + 1)).toNat = s.utf8ByteSize + 1 := by
    rw [UInt16.toNat_ofNat']
    exact Nat.mod_eq_of_lt (by omega)
  have hread := word_of_holds (n := UInt16.ofNat (s.utf8ByteSize + 1))
    (by rw [hword]; exact h.append_left)
  -- the text and its zero byte
  have htext := h.append_right
  rw [Bytes.length_littleEndian] at htext
  have hlast : (s.toUTF8.data.toList ++ [0]).getLast? = some (0 : UInt8) := by simp
  have hbytes : (⟨(s.toUTF8.data.toList ++ [0]).dropLast.toArray⟩ : ByteArray) = s.toUTF8 := by
    rw [List.dropLast_concat]
  refine hread.bind fun _ => ?_
  simp only [hword]
  refine (take_of_holds htext (by simp)).bind fun _ => ?_
  simp only [hlast, if_true, hbytes, string_of_utf8]
  exact .pure (by simp only [Past.trans]; omega)

/-! ## Reading items -/

theorem expect_of_holds {c : Code} {position : Nat} {t : Tag} (h : c.Holds position [t.toByte]) :
    Reads (c.expect t position) () (position + 1) := by
  refine (byte_of_holds h).bind fun _ => ?_
  simp only [if_true]
  exact .pure rfl

theorem tag_of_holds {c : Code} {position : Nat} {t : Tag} (h : c.Holds position [t.toByte]) :
    Reads (c.tag position) t (position + 1) := by
  refine (byte_of_holds h).bind fun _ => ?_
  simp only [Tag.ofByte?_toByte]
  exact .pure rfl

theorem opcode_of_holds {c : Code} {position : Nat} {o : Opcode}
    (h : c.Holds position (Item.bytes (.code o))) : Reads (c.opcode position) o (position + 2) := by
  obtain ⟨htag, hbyte⟩ := holds_cons_iff.1 h
  refine (expect_of_holds htag).bind fun _ => (byte_of_holds hbyte).bind fun _ => ?_
  simp only [Opcode.ofByte?_toByte]
  exact .pure rfl

theorem tagged_of_holds {α : Type} {c : Code} {t : Tag}
    {read : (position : Nat) → c.Read α position} {position q : Nat} {a : α}
    (htag : c.Holds position [t.toByte]) (hread : Reads (read (position + 1)) a q) :
    Reads (c.tagged t read position) a q :=
  (expect_of_holds htag).bind fun _ => hread.bind fun _ => .pure rfl

theorem taggedNumber_of_holds {c : Code} {position : Nat} {n : Int64}
    (h : c.Holds position (Item.bytes (.num n))) :
    Reads (c.taggedNumber position) n (position + 9) := by
  obtain ⟨htag, hnumber⟩ := holds_cons_iff.1 h
  exact tagged_of_holds htag (number_of_holds hnumber)

/-- Names and texts differ in their tags only. -/
theorem tagged_text_of_holds {c : Code} {t : Tag} {position : Nat} {s : String}
    (hs : Item.textFits s = true) (h : c.Holds position (t.toByte :: Item.textBytes s)) :
    Reads (c.tagged t c.text position) s (position + (t.toByte :: Item.textBytes s).length) := by
  obtain ⟨htag, htext⟩ := holds_cons_iff.1 h
  have hread := tagged_of_holds htag (text_of_holds hs htext)
  rwa [Nat.add_assoc, Nat.add_comm 1, ← List.length_cons] at hread

theorem taggedName_of_holds {c : Code} {position : Nat} {name : String}
    (hs : Item.textFits name = true) (h : c.Holds position (Item.bytes (.var name))) :
    Reads (c.taggedName position) name (position + (Item.bytes (.var name)).length) :=
  tagged_text_of_holds hs h

theorem taggedText_of_holds {c : Code} {position : Nat} {s : String}
    (hs : Item.textFits s = true) (h : c.Holds position (Item.bytes (.str s))) :
    Reads (c.taggedText position) s (position + (Item.bytes (.str s)).length) :=
  tagged_text_of_holds hs h

end Code

end ScriptMachine
