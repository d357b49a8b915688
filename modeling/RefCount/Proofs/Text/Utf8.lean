/-
Characters and their bytes. Decoding takes exactly the well-formed encodings: a
byte string begins with a character if and only if it begins with the bytes
that encode it (`decodeChar?_eq_some_iff`). So the characters of a byte string
can be written back to it, and the text of an encoded string is the string.

# The argument

What decoding accepts is said once, by the number of bytes and in numbers
(`Decodes`). The code points of the four cases do not overlap: overlong forms
and surrogates are kept out by the range of the second byte. The rest is
arithmetic on the payload bits.
-/
import Mathlib
import RefCount.Text.Bytes

namespace RefCount

open List Bytes

namespace Text

variable {b c : UInt8} {bs : Bytes} {n w : Nat} {x : Char}

-- ======== decoding

theorem isTail_iff : isTail b = true ↔ 0x80 ≤ b.toNat ∧ b.toNat ≤ 0xBF := by
  simp [isTail, UInt8.le_iff_toNat_le]

theorem isSecond_iff : isSecond b c = true ↔
    0x80 ≤ c.toNat ∧ c.toNat ≤ 0xBF ∧ (b.toNat = 0xE0 → 0xA0 ≤ c.toNat) ∧
      (b.toNat = 0xED → c.toNat ≤ 0x9F) ∧ (b.toNat = 0xF0 → 0x90 ≤ c.toNat) ∧
      (b.toNat = 0xF4 → c.toNat ≤ 0x8F) := by
  have heq (k : UInt8) : b = k ↔ b.toNat = k.toNat := UInt8.toNat_inj.symm
  simp only [isSecond, secondRange, heq, Bool.and_eq_true, decide_eq_true_eq,
    UInt8.le_iff_toNat_le, UInt8.reduceToNat]
  split_ifs <;> simp only [UInt8.reduceToNat] <;> omega

/-- A byte string begins with the bytes of a code point, so many of them. -/
inductive Decodes : Bytes → Nat → Nat → Prop
  | one {b : UInt8} {rest : Bytes} {n : Nat} (hb : b.toNat < 0x80) (hn : n = b.toNat) :
      Decodes (b :: rest) n 1
  | two {b c : UInt8} {rest : Bytes} {n : Nat} (hb : 0xC2 ≤ b.toNat ∧ b.toNat ≤ 0xDF)
      (hc : isTail c = true) (hn : n = b.toNat % 0x20 * 0x40 + tailBits c) :
      Decodes (b :: c :: rest) n 2
  | three {b c d : UInt8} {rest : Bytes} {n : Nat} (hb : 0xE0 ≤ b.toNat ∧ b.toNat ≤ 0xEF)
      (hc : isSecond b c = true) (hd : isTail d = true)
      (hn : n = b.toNat % 0x10 * 0x1000 + tailBits c * 0x40 + tailBits d) :
      Decodes (b :: c :: d :: rest) n 3
  | four {b c d e : UInt8} {rest : Bytes} {n : Nat} (hb : 0xF0 ≤ b.toNat ∧ b.toNat ≤ 0xF4)
      (hc : isSecond b c = true) (hd : isTail d = true) (he : isTail e = true)
      (hn : n = b.toNat % 8 * 0x40000 + tailBits c * 0x1000 + tailBits d * 0x40 + tailBits e) :
      Decodes (b :: c :: d :: e :: rest) n 4

/-- What is decoded is decoded by the table. -/
theorem exists_decodes (h : decodeChar? bs = some (x, w)) :
    ∃ n, Decodes bs n w ∧ Char.ofNat n = x := by
  unfold decodeChar? at h
  simp only [UInt8.lt_iff_toNat_lt, Bool.and_eq_true, decide_eq_true_eq, UInt8.le_iff_toNat_le,
    UInt8.reduceToNat] at h
  split at h
  · cases h
  · split_ifs at h with hone htwo hthree hfour
    · cases h
      exact ⟨_, .one hone rfl, rfl⟩
    · split at h
      · split_ifs at h with hc
        cases h
        exact ⟨_, .two htwo hc rfl, rfl⟩
      · cases h
    · split at h
      · split_ifs at h with hc
        cases h
        exact ⟨_, .three hthree hc.1 hc.2 rfl, rfl⟩
      · cases h
    · split at h
      · split_ifs at h with hc
        cases h
        exact ⟨_, .four hfour hc.1.1 hc.1.2 hc.2 rfl, rfl⟩
      · cases h

/-- What the table has is decoded. -/
theorem Decodes.decodeChar? (h : Decodes bs n w) : decodeChar? bs = some (Char.ofNat n, w) := by
  unfold Text.decodeChar?
  cases h with
  | one hb hn => simp [UInt8.lt_iff_toNat_lt, hb, hn]
  | two hb hc hn =>
    simp only [UInt8.lt_iff_toNat_lt, UInt8.le_iff_toNat_le, UInt8.reduceToNat, hc, hn]
    rw [if_neg (by omega), if_pos (by simpa using hb)]
    rfl
  | three hb hc hd hn =>
    simp only [UInt8.lt_iff_toNat_lt, UInt8.le_iff_toNat_le, UInt8.reduceToNat, hc, hd, hn]
    rw [if_neg (by omega), if_neg (by simp; omega), if_pos (by simpa using hb)]
    rfl
  | four hb hc hd he hn =>
    simp only [UInt8.lt_iff_toNat_lt, UInt8.le_iff_toNat_le, UInt8.reduceToNat, hc, hd, he, hn]
    rw [if_neg (by omega), if_neg (by simp; omega), if_neg (by simp; omega),
      if_pos (by simpa using hb)]
    rfl

/-- Surrogates and numbers that are too large are kept out. -/
theorem Decodes.isValidChar (h : Decodes bs n w) : n.isValidChar := by
  cases h with
  | one hb hn => exact .inl (by omega)
  | two hb hc hn => exact .inl (by unfold tailBits at hn; omega)
  | three hb hc hd hn =>
    rw [isSecond_iff] at hc
    unfold tailBits at hn
    unfold Nat.isValidChar
    omega
  | four hb hc hd he hn =>
    rw [isSecond_iff] at hc
    unfold tailBits at hn
    unfold Nat.isValidChar
    omega

-- ======== encoding

theorem toNat_ofNat_of_lt (h : n < 256) : (UInt8.ofNat n).toNat = n := by
  simp [Nat.mod_eq_of_lt h]

theorem eq_ofNat_of_toNat (h : b.toNat = n) : b = UInt8.ofNat n := by
  rw [← h, UInt8.ofNat_toNat]

theorem ofString_eq (s : String) : ofString s = s.toList.flatMap String.utf8EncodeChar := by
  rw [ofString, String.toUTF8, ← String.utf8Encode_toList, List.utf8Encode]
  simp

theorem ofChar_eq (x : Char) : ofChar x = String.utf8EncodeChar x := by
  rw [ofChar, ofString_eq]
  simp

theorem ofString_append (s t : String) :
    ofString (s ++ t) = ofString s ++ ofString t := by
  simp only [ofString_eq, String.toList_append, flatMap_append]

theorem ofChar_ne_nil (x : Char) : ofChar x ≠ [] := by
  rw [ofChar_eq]
  exact String.utf8EncodeChar_ne_nil

/-- The table has what every character is encoded to. -/
theorem decodes_ofChar (x : Char) (rest : Bytes) :
    Decodes (ofChar x ++ rest) x.toNat (ofChar x).length := by
  have hvalid : x.toNat.isValidChar := x.valid
  have hval : x.val.toNat = x.toNat := rfl
  rw [ofChar_eq, String.utf8EncodeChar]
  simp only [hval]
  generalize x.toNat = n at hvalid
  unfold Nat.isValidChar at hvalid
  split_ifs with hone htwo hthree
  · exact .one (by rw [toNat_ofNat_of_lt] <;> omega) (by rw [toNat_ofNat_of_lt]; omega)
  · have hb := @toNat_ofNat_of_lt (n / 64 % 32 + 192) (by omega)
    have hc := @toNat_ofNat_of_lt (n % 64 + 128) (by omega)
    refine .two ?_ ?_ ?_
    · omega
    · rw [isTail_iff]
      omega
    · unfold tailBits
      omega
  · have hb := @toNat_ofNat_of_lt (n / 4096 % 16 + 224) (by omega)
    have hc := @toNat_ofNat_of_lt (n / 64 % 64 + 128) (by omega)
    have hd := @toNat_ofNat_of_lt (n % 64 + 128) (by omega)
    refine .three ?_ ?_ ?_ ?_
    · omega
    · rw [isSecond_iff]
      omega
    · rw [isTail_iff]
      omega
    · unfold tailBits
      omega
  · have hb := @toNat_ofNat_of_lt (n / 262144 % 8 + 240) (by omega)
    have hc := @toNat_ofNat_of_lt (n / 4096 % 64 + 128) (by omega)
    have hd := @toNat_ofNat_of_lt (n / 64 % 64 + 128) (by omega)
    have he := @toNat_ofNat_of_lt (n % 64 + 128) (by omega)
    refine .four ?_ ?_ ?_ ?_ ?_
    · omega
    · rw [isSecond_iff]
      omega
    · rw [isTail_iff]
      omega
    · rw [isTail_iff]
      omega
    · unfold tailBits
      omega

/-- What is decoded is what the character is encoded to. -/
theorem Decodes.take_eq (h : Decodes bs x.toNat w) : bs.take w = ofChar x := by
  have hval : x.val.toNat = x.toNat := rfl
  rw [ofChar_eq, String.utf8EncodeChar]
  simp only [hval]
  generalize x.toNat = n at h
  cases h with
  | one hb hn =>
    rw [if_pos (by omega), hn, UInt8.ofNat_toNat]
    rfl
  | @two b c _ _ hb hc hn =>
    rw [isTail_iff] at hc
    unfold tailBits at hn
    rw [if_neg (by omega), if_pos (by omega),
      ← @eq_ofNat_of_toNat b _ (by omega), ← @eq_ofNat_of_toNat c _ (by omega)]
    rfl
  | @three b c d _ _ hb hc hd hn =>
    rw [isTail_iff] at hd
    rw [isSecond_iff] at hc
    unfold tailBits at hn
    rw [if_neg (by omega), if_neg (by omega), if_pos (by omega),
      ← @eq_ofNat_of_toNat b _ (by omega), ← @eq_ofNat_of_toNat c _ (by omega),
      ← @eq_ofNat_of_toNat d _ (by omega)]
    rfl
  | @four b c d e _ _ hb hc hd he hn =>
    rw [isTail_iff] at hd he
    rw [isSecond_iff] at hc
    unfold tailBits at hn
    rw [if_neg (by omega), if_neg (by omega), if_neg (by omega),
      ← @eq_ofNat_of_toNat b _ (by omega), ← @eq_ofNat_of_toNat c _ (by omega),
      ← @eq_ofNat_of_toNat d _ (by omega), ← @eq_ofNat_of_toNat e _ (by omega)]
    rfl

-- ======== characters

/-- A character is decoded exactly where its bytes stand. -/
theorem decodeChar?_eq_some_iff :
    decodeChar? bs = some (x, w) ↔ w = (ofChar x).length ∧ ofChar x <+: bs := by
  constructor
  · intro h
    obtain ⟨n, hn, rfl⟩ := exists_decodes h
    have hx : (Char.ofNat n).toNat = n := by rw [Char.toNat_ofNat, if_pos hn.isValidChar]
    have htake : bs.take w = ofChar (Char.ofNat n) := Decodes.take_eq (hx.symm ▸ hn)
    have hw : w ≤ bs.length := by
      cases hn <;> simp
    refine ⟨?_, htake ▸ take_prefix w bs⟩
    rw [← htake, length_take, Nat.min_eq_left hw]
  · rintro ⟨rfl, rest, rfl⟩
    rw [(decodes_ofChar x rest).decodeChar?, Char.ofNat_toNat]

/-- What is left after the character that a text begins with. -/
theorem eq_ofChar_append {rest : Bytes} (h : decodeChar? (b :: rest) = some (x, w)) :
    b :: rest = ofChar x ++ rest.drop (w - 1) := by
  obtain ⟨hw, after, hafter⟩ := decodeChar?_eq_some_iff.1 h
  obtain ⟨k, rfl⟩ : ∃ k, w = k + 1 := by
    refine Nat.exists_eq_add_one.2 ?_
    rw [hw]
    exact length_pos_iff.2 (ofChar_ne_nil x)
  have hdrop : (b :: rest).drop (k + 1) = after := by
    rw [← hafter, hw, drop_left]
  rw [Nat.add_sub_cancel, ← drop_succ_cons, hdrop, hafter]

/-- An ASCII character is one byte. -/
theorem ofChar_of_lt (hx : x.toNat < 0x80) : ofChar x = [x.toNat.toUInt8] := by
  have hval : x.val.toNat = x.toNat := rfl
  rw [ofChar_eq, String.utf8EncodeChar]
  simp only [hval]
  rw [if_pos (by omega)]

/-- Bytes of a character that is not plain are not plain. -/
theorem Decodes.le_of_mem (h : Decodes bs n w) (hn : 0x80 ≤ n) (hb : b ∈ bs.take w) :
    0x80 ≤ b.toNat := by
  cases h with
  | one => omega
  | two _ hc =>
    rw [isTail_iff] at hc
    simp only [take_succ_cons, take_zero, mem_cons, not_mem_nil, or_false] at hb
    rcases hb with rfl | rfl <;> omega
  | three _ hc hd =>
    rw [isTail_iff] at hd
    rw [isSecond_iff] at hc
    simp only [take_succ_cons, take_zero, mem_cons, not_mem_nil, or_false] at hb
    rcases hb with rfl | rfl | rfl <;> omega
  | four _ hc hd he =>
    rw [isTail_iff] at hd he
    rw [isSecond_iff] at hc
    simp only [take_succ_cons, take_zero, mem_cons, not_mem_nil, or_false] at hb
    rcases hb with rfl | rfl | rfl | rfl <;> omega

/-- The bytes of every other character are not ASCII. -/
theorem le_of_mem_ofChar (hx : 0x80 ≤ x.toNat) (hb : b ∈ ofChar x) : 0x80 ≤ b.toNat := by
  have hdecodes := decodes_ofChar x []
  rw [← hdecodes.take_eq] at hb
  exact hdecodes.le_of_mem hx hb

end Text

namespace Bytes

/-- The characters of a byte string can be written back. -/
theorem flatMap_chars (bs : Bytes) :
    bs.chars.flatMap (Sum.elim (fun b => [b]) ofChar) = bs := by
  fun_induction chars bs with
  | case1 => rfl
  | case2 b rest x w h ih =>
    rw [flatMap_cons, ih]
    exact (Text.eq_ofChar_append h).symm
  | case3 b rest h ih =>
    rw [flatMap_cons, ih]
    rfl

/-- A character is read back in front of other bytes. -/
theorem chars_ofChar_append (x : Char) (rest : Bytes) :
    chars (ofChar x ++ rest) = .inr x :: chars rest := by
  obtain ⟨b, tail, hb⟩ := exists_cons_of_ne_nil (Text.ofChar_ne_nil x)
  have hdecode : Text.decodeChar? (b :: (tail ++ rest)) = some (x, tail.length + 1) :=
    Text.decodeChar?_eq_some_iff.2 ⟨by rw [hb, length_cons], rest, by rw [hb]; rfl⟩
  rw [hb, cons_append, chars, hdecode]
  dsimp only
  rw [Nat.add_sub_cancel, drop_left]

/-- So are characters one after the other. -/
theorem chars_flatMap (xs : List Char) : chars (xs.flatMap ofChar) = xs.map .inr := by
  induction xs with
  | nil => rw [flatMap_nil, chars]; rfl
  | cons x xs ih => rw [flatMap_cons, chars_ofChar_append, ih, map_cons]

/-- A text is read back from its bytes. -/
theorem toText_ofString (s : String) : toText (ofString s) = s := by
  have hs : ofString s = s.toList.flatMap ofChar := by
    rw [Text.ofString_eq, funext Text.ofChar_eq]
  rw [toText, hs, chars_flatMap, map_map]
  exact (congrArg String.ofList (map_id _)).trans String.ofList_toList

end Bytes

end RefCount
