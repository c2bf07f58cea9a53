import Mathlib.Data.List.TakeWhile
import Terse.Text.Utf8

/-! Every text is read back from its UTF-8 form. -/
namespace Terse.Utf8

variable {x y : Nat} {b c : UInt8} {tail : List UInt8}

/-- The loop goes on with the bytes from its index. -/
theorem toList_loop {bytes : ByteArray} {front back : List UInt8}
    (h : bytes.data.toList = front ++ back) (done : List UInt8) :
    ByteArray.toList.loop bytes front.length done = done.reverse ++ back := by
  have hsize : bytes.size = front.length + back.length := by
    rw [ByteArray.size, ← Array.length_toList, h, List.length_append]
  induction back generalizing front done with
  | nil => rw [ByteArray.toList.loop, if_neg (by simp [hsize]), List.append_nil]
  | cons b back ih =>
    have hget : bytes.get! front.length = b := by
      simp [ByteArray.get!, ← Array.getElem!_toList, h]
    have hnext := ih (List.append_cons front b back ▸ h) (b :: done) (by simp [hsize]; omega)
    rw [List.length_append, List.length_singleton] at hnext
    rw [ByteArray.toList.loop, if_pos (by simp [hsize]), hget, hnext, List.reverse_cons,
      List.append_assoc, List.singleton_append]

theorem toList_toUTF8 (text : String) :
    text.toUTF8.toList = text.toList.flatMap String.utf8EncodeChar := by
  have hdata : text.toUTF8.data.toList = text.toList.flatMap String.utf8EncodeChar := by
    rw [String.toUTF8_eq_toByteArray, ← String.utf8Encode_toList, List.utf8Encode,
      List.toList_data_toByteArray]
  exact (toList_loop (List.nil_append _).symm []).trans hdata

/-! ### The bytes of a character -/

theorem width_ofNat (hx : x < 256) : width (.ofNat x) =
    if x < 0x80 then some 1 else if x < 0xc2 then none else if x < 0xe0 then some 2
      else if x < 0xf0 then some 3 else if x < 0xf5 then some 4 else none := by
  simp only [width, UInt8.lt_iff_toNat_lt, UInt8.toNat_ofNat_of_lt' hx]
  rfl

theorem toNat_ofNat_tail (hy : y < 64) : (UInt8.ofNat (y + 0x80)).toNat = y + 0x80 :=
  UInt8.toNat_ofNat_of_lt' (Nat.lt_trans (Nat.add_lt_add_right hy _) (by decide))

theorem isContinuation_ofNat (hy : y < 64) : isContinuation (.ofNat (y + 0x80)) := by
  have hlow : 0x80 ≤ y + 0x80 := Nat.le_add_left _ _
  have hhigh : y + 0x80 < 0xc0 := Nat.add_lt_add_right hy _
  rw [isContinuation, Bool.and_eq_true, decide_eq_true_eq, decide_eq_true_eq,
    UInt8.le_iff_toNat_le, UInt8.lt_iff_toNat_lt, toNat_ofNat_tail hy]
  exact ⟨hlow, hhigh⟩

/-- Which second bytes may follow a first one: no overlong forms, no surrogates, nothing past the
last code point. -/
theorem mayFollow_ofNat (hx : x < 256) (hy : y < 64) (he0 : x = 0xe0 → 0x20 ≤ y)
    (hed : x = 0xed → y < 0x20) (hf0 : x = 0xf0 → 0x10 ≤ y) (hf4 : x = 0xf4 → y < 0x10) :
    mayFollow (.ofNat x) (.ofNat (y + 0x80)) := by
  simp only [mayFollow, isContinuation_ofNat hy, Bool.true_and, ← UInt8.toNat_inj,
    UInt8.le_iff_toNat_le, UInt8.lt_iff_toNat_lt, toNat_ofNat_tail hy, UInt8.toNat_ofNat_of_lt' hx]
  change (if x = 0xe0 then decide (0xa0 ≤ y + 0x80) else if x = 0xed then decide (y + 0x80 < 0xa0)
    else if x = 0xf0 then decide (0x90 ≤ y + 0x80) else if x = 0xf4 then decide (y + 0x80 < 0x90)
    else true) = true
  grind

theorem fitting_cons (hc : mayFollow b c) (htail : ∀ d ∈ tail, isContinuation d) :
    fitting b (c :: tail) = tail.length + 1 := by
  rw [fitting, if_pos hc, List.takeWhile_eq_self_iff.2 htail, Nat.add_comm]

/-- The bytes `b :: tail` are those of one character and spell its number. -/
structure Spells (char : Char) (b : UInt8) (tail : List UInt8) : Prop where
  width : width b = some (tail.length + 1)
  fitting : fitting b tail = tail.length
  number : number b tail = char.toNat

theorem spells_one {char : Char} (h : char.toNat ≤ 0x7f) : Spells char (.ofNat char.toNat) [] where
  width := by
    rw [width_ofNat (by omega), if_pos (by omega)]
    rfl
  fitting := rfl
  number := UInt8.toNat_ofNat_of_lt' (Nat.lt_of_le_of_lt h (by decide))

theorem spells_two {char : Char} (h : 0x7f < char.toNat) (h' : char.toNat ≤ 0x7ff) :
    Spells char (.ofNat (char.toNat / 64 % 32 + 0xc0)) [.ofNat (char.toNat % 64 + 0x80)] := by
  have hlead : char.toNat / 64 % 32 + 0xc0 < 256 := by omega
  have hlast : char.toNat % 64 < 64 := by omega
  constructor
  · rw [width_ofNat hlead, if_neg (by omega), if_neg (by omega), if_pos (by omega)]
    rfl
  · refine fitting_cons (mayFollow_ofNat hlead hlast ?_ ?_ ?_ ?_) (by simp) <;> omega
  · simp only [number, List.length_singleton, List.foldl_cons, List.foldl_nil,
      UInt8.toNat_ofNat_of_lt' hlead, toNat_ofNat_tail hlast]
    omega

theorem spells_three {char : Char} (h : 0x7ff < char.toNat) (h' : char.toNat ≤ 0xffff) :
    Spells char (.ofNat (char.toNat / 4096 % 16 + 0xe0))
      [.ofNat (char.toNat / 64 % 64 + 0x80), .ofNat (char.toNat % 64 + 0x80)] := by
  -- no character is a surrogate, so that `0xed` is followed by small bytes only
  have hvalid : char.toNat < 0xd800 ∨ 0xdfff < char.toNat ∧ char.toNat < 0x110000 := char.valid
  have hlead : char.toNat / 4096 % 16 + 0xe0 < 256 := by omega
  have hnext : char.toNat / 64 % 64 < 64 := by omega
  have hlast : char.toNat % 64 < 64 := by omega
  constructor
  · rw [width_ofNat hlead, if_neg (by omega), if_neg (by omega), if_neg (by omega),
      if_pos (by omega)]
    rfl
  · refine fitting_cons (mayFollow_ofNat hlead hnext ?_ ?_ ?_ ?_)
      (List.forall_mem_singleton.2 (isContinuation_ofNat hlast)) <;> omega
  · simp only [number, List.length_cons, List.length_nil, List.foldl_cons, List.foldl_nil,
      UInt8.toNat_ofNat_of_lt' hlead, toNat_ofNat_tail hnext, toNat_ofNat_tail hlast]
    omega

theorem spells_four {char : Char} (h : 0xffff < char.toNat) :
    Spells char (.ofNat (char.toNat / 262144 % 8 + 0xf0))
      [.ofNat (char.toNat / 4096 % 64 + 0x80), .ofNat (char.toNat / 64 % 64 + 0x80),
        .ofNat (char.toNat % 64 + 0x80)] := by
  have hvalid : char.toNat < 0xd800 ∨ 0xdfff < char.toNat ∧ char.toNat < 0x110000 := char.valid
  have hlead : char.toNat / 262144 % 8 + 0xf0 < 256 := by omega
  have hnext : char.toNat / 4096 % 64 < 64 := by omega
  have hthird : char.toNat / 64 % 64 < 64 := by omega
  have hlast : char.toNat % 64 < 64 := by omega
  constructor
  · rw [width_ofNat hlead, if_neg (by omega), if_neg (by omega), if_neg (by omega),
      if_neg (by omega), if_pos (by omega)]
    rfl
  · refine fitting_cons (mayFollow_ofNat hlead hnext ?_ ?_ ?_ ?_)
      (List.forall_mem_cons.2 ⟨isContinuation_ofNat hthird,
        List.forall_mem_singleton.2 (isContinuation_ofNat hlast)⟩) <;> omega
  · simp only [number, List.length_cons, List.length_nil, List.foldl_cons, List.foldl_nil,
      UInt8.toNat_ofNat_of_lt' hlead, toNat_ofNat_tail hnext, toNat_ofNat_tail hthird,
      toNat_ofNat_tail hlast]
    omega

theorem spells_encodeChar (char : Char) :
    ∃ b tail, String.utf8EncodeChar char = b :: tail ∧ Spells char b tail := by
  unfold String.utf8EncodeChar
  dsimp only
  split
  · exact ⟨_, _, rfl, spells_one ‹_›⟩
  split
  · exact ⟨_, _, rfl, spells_two (Nat.lt_of_not_le ‹_›) ‹_›⟩
  split
  · exact ⟨_, _, rfl, spells_three (Nat.lt_of_not_le ‹_›) ‹_›⟩
  · exact ⟨_, _, rfl, spells_four (Nat.lt_of_not_le ‹_›)⟩

/-! ### Whole texts -/

theorem decodeFrom_append {char : Char} (h : Spells char b tail) (offset : Nat)
    (rest : List UInt8) : decodeFrom offset (b :: tail ++ rest) =
      (char :: ·) <$> decodeFrom (offset + (tail.length + 1)) rest := by
  rw [List.cons_append, decodeFrom, h.width]
  dsimp only
  rw [Nat.add_sub_cancel, List.take_left, List.drop_left, if_pos h.fitting, h.number,
    Char.ofNat_toNat]
  rfl

theorem decodeFrom_encode (cs : List Char) (offset : Nat) :
    decodeFrom offset (cs.flatMap String.utf8EncodeChar) = .ok cs := by
  induction cs generalizing offset with
  | nil => rw [List.flatMap_nil, decodeFrom]
  | cons c cs ih =>
    obtain ⟨b, tail, hc, hspells⟩ := spells_encodeChar c
    rw [List.flatMap_cons, hc, decodeFrom_append hspells, ih]
    rfl

/-- What has been encoded is decoded again. -/
theorem decode_toUTF8 (text : String) : decode text.toUTF8.toList = .ok text.toList := by
  rw [decode, toList_toUTF8, decodeFrom_encode]

end Terse.Utf8
