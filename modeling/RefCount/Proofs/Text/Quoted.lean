/-
Quoted text reads back. Every byte string, well-formed or not, is written
between quotes so that its end is found where it is (`stringEnd_body`) and what
stands before it reads as the byte string (`unquote?_body`).

# The argument

Between the quotes stands one piece for each character. A piece is the
character as it is, if that is printable, or a backslash with an escape
(`Piece`). Neither form of a piece ends a string or is taken for more or less
than it is, whatever follows it; so both readings go on behind it.
-/
import Mathlib
import RefCount.Sexp.Atom
import RefCount.Proofs.Numeral.Decimal

namespace RefCount.Text

open Numeral (digitByte exists_digits ofDigits)
open Sexp (stringEnd StringEnd)
open List Bytes

variable {b k : UInt8} {text stands rest : Bytes}

-- ======== pieces

/-- A piece of quoted text and the bytes that it stands for. -/
inductive Piece : Bytes → Bytes → Prop
  | raw {x : Char} (hline : x ≠ '\n') (hquote : x ≠ '"') (hslash : x ≠ '\\') :
      Piece (ofChar x) (ofChar x)
  /-- The escape is read whatever follows it. Only its first byte may be one
  that means something in quotes. -/
  | escaped {k : UInt8} {tail stands : Bytes} (htail : ∀ b ∈ tail, b ≠ 34 ∧ b ≠ 92)
      (hread : ∀ rest, escape? (k :: tail ++ rest) = some (stands, tail.length + 1)) :
      Piece (92 :: k :: tail) stands

/-- No byte of a character has a meaning in quotes unless the character has. -/
theorem ne_of_mem_ofChar {x : Char} {n : Nat} (hn : n < 0x80) (hx : x ≠ Char.ofNat n)
    (hb : b ∈ ofChar x) : b ≠ UInt8.ofNat n := by
  rintro rfl
  have hbyte := @toNat_ofNat_of_lt n (by omega)
  by_cases hascii : x.toNat < 0x80
  · rw [ofChar_of_lt hascii, mem_singleton] at hb
    have hnat := congrArg UInt8.toNat hb
    rw [hbyte, toNat_ofNat_of_lt (by omega)] at hnat
    exact hx (by rw [hnat, Char.ofNat_toNat])
  · have hle := le_of_mem_ofChar (by omega) hb
    omega

-- ======== the end

theorem shift_shift (m n : Nat) (e : StringEnd) : (e.shift m).shift n = e.shift (m + n) := by
  cases e <;> simp [StringEnd.shift, Nat.add_assoc]

/-- Bytes without a meaning are passed over. -/
theorem stringEnd_append (h : ∀ b ∈ text, b ≠ 34 ∧ b ≠ 92) :
    stringEnd (text ++ rest) = (stringEnd rest).shift text.length := by
  induction text with
  | nil => cases hrest : stringEnd rest <;> simp [hrest, StringEnd.shift]
  | cons b text ih =>
    obtain ⟨hquote, hslash⟩ := h b mem_cons_self
    have hb : stringEnd (b :: (text ++ rest)) = (stringEnd (text ++ rest)).shift 1 := by
      conv_lhs => unfold stringEnd
      rw [if_neg (by simpa using hquote), if_neg (by simpa using hslash)]
    rw [cons_append, hb, ih fun c hc => h c (mem_cons_of_mem b hc),
      shift_shift, length_cons]

/-- The end of a text is looked for behind a piece. -/
theorem Piece.stringEnd (h : Piece text stands) (rest : Bytes) :
    stringEnd (text ++ rest) = (Sexp.stringEnd rest).shift text.length := by
  cases h with
  | raw hline hquote hslash =>
    exact stringEnd_append fun b hb =>
      ⟨@ne_of_mem_ofChar b _ 34 (by decide) hquote hb,
        @ne_of_mem_ofChar b _ 92 (by decide) hslash hb⟩
  | @escaped k tail _ htail hread =>
    have hslash : Sexp.stringEnd (92 :: k :: (tail ++ rest)) =
        (Sexp.stringEnd (tail ++ rest)).shift 2 := by
      rw [Sexp.stringEnd]
      rfl
    rw [cons_append, cons_append, hslash, stringEnd_append htail, shift_shift]
    rfl

-- ======== the bytes

/-- A piece is read, and then the rest. -/
theorem Piece.unquote? (h : Piece text stands) (rest : Bytes) :
    unquote? (text ++ rest) = (Text.unquote? rest).map (stands ++ ·) := by
  cases h with
  | @raw x hline hquote hslash =>
    obtain ⟨b, tail, hx⟩ := exists_cons_of_ne_nil (ofChar_ne_nil x)
    have hmem : b ∈ ofChar x := by rw [hx]; exact mem_cons_self
    have hbreak : b ≠ 10 := @ne_of_mem_ofChar b _ 10 (by decide) hline hmem
    have hend : b ≠ 34 := @ne_of_mem_ofChar b _ 34 (by decide) hquote hmem
    have hesc : b ≠ 92 := @ne_of_mem_ofChar b _ 92 (by decide) hslash hmem
    have hdecode : decodeChar? (b :: (tail ++ rest)) = some (x, tail.length + 1) :=
      decodeChar?_eq_some_iff.2 ⟨by rw [hx, length_cons], rest, by rw [hx]; rfl⟩
    rw [hx, cons_append, Text.unquote?, if_neg (by simp [hbreak, hend]), if_neg hesc, hdecode]
    dsimp only
    rw [Nat.add_sub_cancel, drop_left, hx]
  | @escaped k tail _ htail hread =>
    have hstop : ¬((decide ((92 : UInt8) = 10) || decide ((92 : UInt8) = 34)) = true) := by decide
    rw [cons_append, Text.unquote?, if_neg hstop, if_pos rfl, hread]
    dsimp only
    rw [← length_cons, drop_left]

-- ======== escapes

/-- Digits are read back. -/
theorem leadingDigits?_digits {ds : List Nat} (h : ∀ d ∈ ds, d < 16) (rest : Bytes) :
    leadingDigits? hexDigit? 16 ds.length (ds.map digitByte ++ rest) = some (ofDigits 16 ds) := by
  have hfold (init : Nat) : (ds.map digitByte).foldlM
      (fun n b => (hexDigit? b).map (n * 16 + ·)) init =
        some (ds.foldl (fun n d => n * 16 + d) init) := by
    induction ds generalizing init with
    | nil => rfl
    | cons d ds ih =>
      rw [map_cons, foldlM_cons, Numeral.hexDigit?_digitByte d (h d mem_cons_self), foldl_cons]
      exact ih (fun e he => h e (mem_cons_of_mem d he)) _
  have htake : (ds.map digitByte ++ rest).take ds.length = ds.map digitByte := by
    rw [← length_map digitByte, take_left]
  rw [leadingDigits?, if_neg (by simp), htake]
  exact hfold 0

/-- A number in so many digits. -/
theorem exists_hexPadded {width n : Nat} (hwidth : 0 < width) (hn : n < 16 ^ width) :
    ∃ ds : List Nat, ds.length = width ∧ (∀ d ∈ ds, d < 16) ∧ ofDigits 16 ds = n ∧
      ofString (hexPadded width n) = ds.map digitByte := by
  obtain ⟨ds, htext, hlt, hvalue⟩ := exists_digits (by decide : 1 < 16) n
  have hlength : ds.length ≤ width := by
    rw [← length_map Nat.digitChar, ← htext]
    exact (Nat.length_toDigits_le_iff (by decide) hwidth).2 hn
  have hall : ∀ d ∈ List.replicate (width - ds.length) 0 ++ ds, d < 16 := by
    simp only [mem_append, mem_replicate]
    rintro d (⟨-, rfl⟩ | hd)
    · decide
    · exact hlt d hd
  have hzeros (m : Nat) : (List.replicate m 0).foldl (fun n d => n * 16 + d) 0 = 0 := by
    induction m with
    | zero => rfl
    | succ m ih => exact ih
  refine ⟨List.replicate (width - ds.length) 0 ++ ds, ?_, hall, ?_, ?_⟩
  · rw [length_append, length_replicate]
    omega
  · rw [ofDigits, foldl_append, hzeros]
    exact hvalue
  · rw [← Numeral.ofString_digits hall, hexPadded, htext, map_append, map_replicate, length_map]
    rfl

theorem piece_hexPadded {width n : Nat} (hwidth : 0 < width) (hn : n < 16 ^ width)
    (hread : ∀ digits, leadingDigits? hexDigit? 16 width digits = some n →
      escape? (k :: digits) = some (stands, width + 1)) :
    Piece (92 :: k :: ofString (hexPadded width n)) stands := by
  obtain ⟨ds, hlength, hlt, hvalue, htext⟩ := exists_hexPadded hwidth hn
  have hplain : ∀ d < 16, digitByte d ≠ 34 ∧ digitByte d ≠ 92 := by decide
  rw [htext]
  refine .escaped ?_ fun rest => ?_
  · intro b hb
    obtain ⟨d, hd, rfl⟩ := mem_map.1 hb
    exact hplain d (hlt d hd)
  · rw [length_map, hlength]
    refine hread (ds.map digitByte ++ rest) ?_
    rw [← hlength, leadingDigits?_digits hlt, hvalue]

/-- A byte by its number. -/
theorem piece_hexByte {n : Nat} (hn : n < 256) :
    Piece (ofString ("\\x" ++ hexPadded 2 n)) [n.toUInt8] := by
  have hread (digits : Bytes) (hdigits : leadingDigits? hexDigit? 16 2 digits = some n) :
      escape? (120 :: digits) = some ([n.toUInt8], 3) :=
    congrArg (Option.map fun m : Nat => ([m.toUInt8], 3)) hdigits
  rw [ofString_append]
  exact piece_hexPadded (by decide) hn hread

/-- A byte that belongs to no character. -/
theorem piece_quoteByte (b : UInt8) : Piece (ofString (quoteByte b)) [b] := by
  have hpiece := piece_hexByte b.toNat_lt
  rwa [Nat.toUInt8, UInt8.ofNat_toNat] at hpiece

/-- Escapes for a character, by its code point. -/
theorem piece_hexChar {x : Char} :
    (x.toNat < 0x10000 → Piece (ofString ("\\u" ++ hexPadded 4 x.toNat)) (ofChar x)) ∧
      Piece (ofString ("\\U" ++ hexPadded 8 x.toNat)) (ofChar x) := by
  have hvalid : x.toNat.isValidChar := x.valid
  have hread (width : Nat) : (some x.toNat).bind (fun n =>
      if n.isValidChar then some (ofChar (Char.ofNat n), width) else none) =
        some (ofChar x, width) := by
    rw [Option.bind_some, if_pos hvalid, Char.ofNat_toNat]
  constructor
  · intro hx
    have hread (digits : Bytes) (hdigits : leadingDigits? hexDigit? 16 4 digits = some x.toNat) :
        escape? (117 :: digits) = some (ofChar x, 5) :=
      (congrArg (Option.bind · _) hdigits).trans (hread 5)
    rw [ofString_append]
    exact piece_hexPadded (by decide) hx hread
  · have hread (digits : Bytes) (hdigits : leadingDigits? hexDigit? 16 8 digits = some x.toNat) :
        escape? (85 :: digits) = some (ofChar x, 9) :=
      (congrArg (Option.bind · _) hdigits).trans (hread 9)
    rw [ofString_append]
    exact piece_hexPadded (by decide) (by unfold Nat.isValidChar at hvalid; omega) hread

/-- A character by a letter. -/
theorem piece_letter {l : Char} (hl : l.toNat < 0x80)
    (hread : ∀ rest, escape? (l.toNat.toUInt8 :: rest) = some (stands, 1)) :
    Piece (ofString ("\\" ++ l.toString)) stands := by
  have hbytes : ofString l.toString = [l.toNat.toUInt8] := ofChar_of_lt hl
  rw [ofString_append, hbytes]
  exact .escaped (fun _ hb => absurd hb not_mem_nil) hread

theorem piece_controlLetter {x l : Char} (h : controlLetter? x = some l) :
    Piece (ofString ("\\" ++ l.toString)) (ofChar x) := by
  have hx : x = Char.ofNat x.toNat := (Char.ofNat_toNat x).symm
  unfold controlLetter? at h
  split at h
  case h_8 => cases h
  all_goals
    cases h
    rename_i hn
    rw [hn] at hx
    subst hx
    exact piece_letter (by decide) fun _ => rfl

/-- Every character is written as a piece that stands for it. -/
theorem piece_quoteChar (x : Char) : Piece (ofString (quoteChar x)) (ofChar x) := by
  unfold quoteChar
  split
  case isTrue hmeans =>
    simp only [Bool.or_eq_true, decide_eq_true_eq] at hmeans
    obtain rfl | rfl := hmeans <;> exact piece_letter (by decide) fun _ => rfl
  case isFalse hmeans =>
    simp only [Bool.or_eq_true, decide_eq_true_eq, not_or] at hmeans
    split
    case isTrue hprintable =>
      refine .raw ?_ hmeans.1 hmeans.2
      rintro rfl
      exact absurd hprintable (by decide)
    case isFalse =>
      split
      case h_1 l hletter => exact piece_controlLetter hletter
      case h_2 =>
        split_ifs with hascii hshort
        · simp only [Bool.or_eq_true, decide_eq_true_eq] at hascii
          rw [ofChar_of_lt (by omega)]
          exact piece_hexByte (by omega)
        · exact piece_hexChar.1 hshort
        · exact piece_hexChar.2

-- ======== whole texts

/-- What stands between the quotes. -/
def body (bs : Bytes) : Bytes :=
  bs.chars.flatMap fun k => ofString (Sum.elim quoteByte quoteChar k)

theorem ofString_quote (bs : Bytes) : ofString (quote bs) = 34 :: (body bs ++ [34]) := by
  have hjoin (ss : List String) : ofString (String.join ss) = ss.flatMap ofString := by
    induction ss with
    | nil => rfl
    | cons s ss ih => rw [String.join_cons, ofString_append, ih, flatMap_cons]
  rw [quote, ofString_append, ofString_append, hjoin, flatMap_map]
  rfl

theorem piece_of_char (k : UInt8 ⊕ Char) : Piece (ofString (Sum.elim quoteByte quoteChar k))
    (Sum.elim (fun b => [b]) ofChar k) := by
  cases k with
  | inl b => exact piece_quoteByte b
  | inr x => exact piece_quoteChar x

/-- What is written between quotes is read back. -/
theorem unquote?_body (bs : Bytes) : unquote? (body bs) = some bs := by
  have hall (ks : List (UInt8 ⊕ Char)) :
      unquote? (ks.flatMap fun k => ofString (Sum.elim quoteByte quoteChar k)) =
        some (ks.flatMap (Sum.elim (fun b => [b]) ofChar)) := by
    induction ks with
    | nil => rw [flatMap_nil, unquote?]; rfl
    | cons k ks ih =>
      rw [flatMap_cons, (piece_of_char k).unquote?, ih, flatMap_cons]
      rfl
  rw [body, hall, flatMap_chars]

/-- The closing quote is the first one that is not escaped. -/
theorem stringEnd_body (bs rest : Bytes) :
    stringEnd (body bs ++ 34 :: rest) = .closed (body bs).length := by
  rw [body]
  induction bs.chars with
  | nil =>
    rw [flatMap_nil, nil_append]
    unfold stringEnd
    rfl
  | cons k ks ih =>
    rw [flatMap_cons, append_assoc, (piece_of_char k).stringEnd, ih, StringEnd.shift,
      length_append, Nat.add_comm]

end RefCount.Text
