/-
Digits. A number written in digits reads back as itself, in every base up to
sixteen and with zeros in front, and so does an integer in decimal with its
sign.
-/
import Mathlib
import RefCount.Numeral.Read
import RefCount.Proofs.Text.Utf8

namespace RefCount.Numeral

open List

-- ======== digits

/-- The byte of a digit. -/
def digitByte (d : Nat) : UInt8 := d.digitChar.toNat.toUInt8

theorem hexDigit?_digitByte : ∀ d < 16, Text.hexDigit? (digitByte d) = some d := by decide

theorem decimalDigit?_digitByte : ∀ d < 10, decimalDigit? (digitByte d) = some d := by decide

/-- One more digit. -/
theorem ofDigits_append_single (b : Nat) (ds : List Nat) (d : Nat) :
    ofDigits b (ds ++ [d]) = ofDigits b ds * b + d := by
  rw [ofDigits, foldl_append]
  rfl

/-- A number is written with digits whose value it is. -/
theorem exists_digits {b : Nat} (hb : 1 < b) (n : Nat) :
    ∃ ds, Nat.toDigits b n = ds.map Nat.digitChar ∧ (∀ d ∈ ds, d < b) ∧ ofDigits b ds = n := by
  induction n using Nat.strongRecOn with
  | ind n ih =>
    rw [Nat.toDigits_eq_if hb]
    split
    · refine ⟨[n], rfl, by simpa, ?_⟩
      rw [ofDigits, foldl_cons, foldl_nil, zero_mul, zero_add]
    · obtain ⟨ds, htext, hlt, hvalue⟩ := ih (n / b) (Nat.div_lt_self (by omega) hb)
      refine ⟨ds ++ [n % b], by rw [htext, map_append]; rfl, ?_, ?_⟩
      · simp only [mem_append, mem_singleton]
        rintro d (hd | rfl)
        · exact hlt d hd
        · exact Nat.mod_lt n (by omega)
      · rw [ofDigits_append_single, hvalue, Nat.div_add_mod']

theorem ofString_digits {ds : List Nat} (h : ∀ d ∈ ds, d < 16) :
    Bytes.ofString (String.ofList (ds.map Nat.digitChar)) = ds.map digitByte := by
  rw [Text.ofString_eq, String.toList_ofList, flatMap_map]
  induction ds with
  | nil => rfl
  | cons d ds ih =>
    have hd : d.digitChar.toNat < 0x80 :=
      (by decide : ∀ d < 16, (Nat.digitChar d).toNat < 0x80) d (h d mem_cons_self)
    rw [flatMap_cons, ih fun e he => h e (mem_cons_of_mem d he), ← Text.ofChar_eq,
      Text.ofChar_of_lt hd]
    rfl

/-- Digits are taken up to the end. -/
theorem takeDigits_map {ds : List Nat} (h : ∀ d ∈ ds, d < 10) :
    takeDigits decimalDigit? (ds.map digitByte) = (ds, []) := by
  induction ds with
  | nil => rfl
  | cons d ds ih =>
    rw [map_cons, takeDigits, decimalDigit?_digitByte d (h d mem_cons_self)]
    dsimp only
    rw [ih fun e he => h e (mem_cons_of_mem d he)]

-- ======== integers

/-- An integer in decimal is a sign, if it is negative, and digits. -/
theorem exists_decimal (n : Int) : ∃ ds, ds ≠ [] ∧ (∀ d ∈ ds, d < 10) ∧
    ofDigits 10 ds = n.natAbs ∧
    Bytes.ofString (toString n) = (if n < 0 then [45] else []) ++ ds.map digitByte := by
  obtain ⟨ds, htext, hlt, hvalue⟩ := exists_digits (by decide : 1 < 10) n.natAbs
  have hdigits : Bytes.ofString (String.ofList (Nat.toDigits 10 n.natAbs)) = ds.map digitByte := by
    rw [htext, ofString_digits fun d hd => (hlt d hd).trans (by decide)]
  refine ⟨ds, ?_, hlt, hvalue, ?_⟩
  · rintro rfl
    exact Nat.toDigits_ne_nil htext
  · cases n with
    | ofNat m =>
      have hm : ¬Int.ofNat m < 0 := Int.not_lt.2 (Int.natCast_nonneg m)
      rw [if_neg hm]
      exact hdigits
    | negSucc m =>
      rw [if_pos (Int.negSucc_lt_zero m), ← hdigits]
      exact Text.ofString_append "-" _

theorem takeSign_digits {ds : List Nat} (hne : ds ≠ []) (h : ∀ d ∈ ds, d < 10) :
    takeSign (ds.map digitByte) = (false, ds.map digitByte) := by
  obtain ⟨d, ds, rfl⟩ := exists_cons_of_ne_nil hne
  have hd : digitByte d ≠ 43 ∧ digitByte d ≠ 45 :=
    (by decide : ∀ d < 10, digitByte d ≠ 43 ∧ digitByte d ≠ 45) d (h d mem_cons_self)
  rw [map_cons, takeSign]
  · exact fun _ hcons => hd.1 (cons.inj hcons).1
  · exact fun _ hcons => hd.2 (cons.inj hcons).1

/-- An integer is read back from how it is written. -/
theorem readInt_decimal (n : Int64) : readInt (Bytes.ofString (toString n.toInt)) = .ok n := by
  obtain ⟨ds, hne, hlt, hvalue, htext⟩ := exists_decimal n.toInt
  have hpow : Nat.pow 2 63 = 2 ^ 63 := rfl
  have hle : n.toInt < 2 ^ 63 := n.toInt_lt
  have hge : -2 ^ 63 ≤ n.toInt := n.le_toInt
  obtain ⟨d, ds, rfl⟩ := exists_cons_of_ne_nil hne
  rw [htext, readInt]
  by_cases hn : n.toInt < 0
  · have hsign : takeSign ([45] ++ (d :: ds).map digitByte) = (true, (d :: ds).map digitByte) := rfl
    rw [if_pos hn, hsign]
    dsimp only
    rw [takeDigits_map hlt]
    dsimp only
    rw [hvalue, if_pos rfl, if_pos (by omega), Int.ofNat_natAbs_of_nonpos (by omega), Int.neg_neg,
      Int64.ofInt_toInt]
  · rw [if_neg hn, nil_append, takeSign_digits hne hlt]
    dsimp only
    rw [takeDigits_map hlt]
    dsimp only
    rw [hvalue, if_neg Bool.false_ne_true, if_pos (by omega),
      Int.natAbs_of_nonneg (by omega), Int64.ofInt_toInt]

end RefCount.Numeral
