/-
Texts that can be read in one way only. What a text stands for is found even
if more follows it, as long as what follows does not go on with the text: a
number ends before what is no digit, a word where a character stands that it
cannot have, and a list where no further piece starts.
-/
import Mathlib

namespace RefCount.Text

open List

variable {α : Type} {s t : List Char}

/-- Two texts with something behind them are the same if what is read is. -/
def Reads (F : List Char → Prop) (g : α → List Char) (a b : α) : Prop :=
  ∀ s t, F s → F t → g a ++ s = g b ++ t → a = b ∧ s = t

/-- Where the first characters of a kind end is known from the text alone. -/
theorem span_append_inj (P : Char → Bool) {a b : List Char} (ha : ∀ c ∈ a, P c = true)
    (hb : ∀ c ∈ b, P c = true) (hs : ∀ c ∈ s.head?, P c = false)
    (ht : ∀ c ∈ t.head?, P c = false) (h : a ++ s = b ++ t) : a = b ∧ s = t := by
  have htake : ∀ {a s : List Char}, (∀ c ∈ a, P c = true) → (∀ c ∈ s.head?, P c = false) →
      (a ++ s).takeWhile P = a := by
    intro a s ha hs
    rw [takeWhile_append_of_pos ha]
    cases s <;> simp_all
  obtain rfl : a = b := by rw [← htake ha hs, h, htake hb ht]
  exact ⟨rfl, append_cancel_left h⟩

-- ======== lists

section Lists

variable {F : List Char → Prop} {g : α → List Char} {xs ys : List α}

/-- Pieces one after the other are known if each is, and what follows starts
none. -/
theorem flatMap_append_inj (hread : ∀ a ∈ xs, ∀ b ∈ ys, Reads F g a b)
    (hF : ∀ a s, F (g a ++ s)) (hs : F s) (ht : F t) (hends : ∀ a u, g a ++ u ≠ s)
    (hendt : ∀ a u, g a ++ u ≠ t) (h : xs.flatMap g ++ s = ys.flatMap g ++ t) :
    xs = ys ∧ s = t := by
  have hbehind : ∀ (zs : List α) {s : List Char}, F s → F (zs.flatMap g ++ s) := by
    intro zs s hs
    cases zs with
    | nil => exact hs
    | cons z zs =>
      rw [flatMap_cons, append_assoc]
      exact hF z _
  induction xs generalizing ys with
  | nil =>
    cases ys with
    | nil => exact ⟨rfl, h⟩
    | cons b ys =>
      rw [flatMap_cons, append_assoc] at h
      exact absurd h.symm (hends b _)
  | cons a xs ih =>
    rw [flatMap_cons, append_assoc] at h
    cases ys with
    | nil => exact absurd h (hendt a _)
    | cons b ys =>
      rw [flatMap_cons, append_assoc] at h
      obtain ⟨rfl, hrest⟩ := hread a mem_cons_self b mem_cons_self _ _ (hbehind xs hs)
        (hbehind ys ht) h
      obtain ⟨rfl, rfl⟩ := ih (fun a ha b hb =>
        hread a (mem_cons_of_mem _ ha) b (mem_cons_of_mem _ hb)) hrest
      exact ⟨rfl, rfl⟩

/-- A separator stands in front of every piece but the first. -/
theorem toList_intercalate_cons (sep x : String) (ys : List String) :
    (sep.intercalate (x :: ys)).toList =
      x.toList ++ ys.flatMap fun y => sep.toList ++ y.toList := by
  induction ys generalizing x with
  | nil => simp
  | cons y ys ih =>
    rw [String.intercalate_cons_cons, String.toList_append, String.toList_append, ih]
    simp

/-- Pieces with separators are known if each is, and what follows starts none.
-/
theorem intercalate_append_inj {sep : String} {g : α → String}
    (hread : ∀ a ∈ xs, ∀ b ∈ ys, Reads F (fun a => (g a).toList) a b)
    (hF : ∀ a s, F (sep.toList ++ (g a).toList ++ s)) (hs : F s) (ht : F t)
    (hends : ∀ a u, sep.toList ++ (g a).toList ++ u ≠ s)
    (hendt : ∀ a u, sep.toList ++ (g a).toList ++ u ≠ t)
    (hnones : ∀ a ∈ ys, ∀ u, (g a).toList ++ u ≠ s) (hnonet : ∀ a ∈ xs, ∀ u, (g a).toList ++ u ≠ t)
    (h : (sep.intercalate (xs.map g)).toList ++ s = (sep.intercalate (ys.map g)).toList ++ t) :
    xs = ys ∧ s = t := by
  cases xs with
  | nil =>
    cases ys with
    | nil => exact ⟨rfl, by simpa using h⟩
    | cons b ys =>
      rw [map_cons, toList_intercalate_cons, append_assoc] at h
      exact absurd h.symm (hnones b mem_cons_self _)
  | cons a xs =>
    rw [map_cons, toList_intercalate_cons, append_assoc] at h
    cases ys with
    | nil => exact absurd h (hnonet a mem_cons_self _)
    | cons b ys =>
      -- as if one more separator stood in front
      refine flatMap_append_inj (g := fun a => sep.toList ++ (g a).toList)
        (fun a ha b hb s t hs ht h => ?_) hF hs ht hends hendt ?_
      · rw [append_assoc, append_assoc] at h
        exact hread a ha b hb s t hs ht (append_cancel_left h)
      · rw [map_cons, toList_intercalate_cons, append_assoc] at h
        simpa [flatMap_map, Function.comp_def] using h

end Lists

-- ======== numbers

/-- A number does not go on here. -/
def Stops (s : List Char) : Prop := ∀ c ∈ s.head?, (c.isDigit || c == '-') = false

@[simp] theorem stops_cons {c : Char} : Stops (c :: s) ↔ (c.isDigit || c == '-') = false := by
  simp [Stops]

theorem isDigit_of_mem_toString {n : Nat} {c : Char} (h : c ∈ (toString n).toList) :
    c.isDigit = true :=
  Nat.isDigit_of_mem_toDigits (b := 10) (by decide) (by decide) (by simpa using h)

theorem toString_ofNat (n : Nat) : toString (Int.ofNat n) = toString n := rfl

theorem toString_negSucc (n : Nat) : toString (Int.negSucc n) = "-" ++ toString (n + 1) := rfl

/-- No two integers are written alike. -/
theorem toString_int_inj {m n : Int} (h : toString m = toString n) : m = n := by
  have hsign : ∀ {m n : Nat}, toString m ≠ "-" ++ toString n := by
    intro m n h
    have hdigit : '-'.isDigit = true := isDigit_of_mem_toString (n := m) (by rw [h]; simp)
    exact absurd hdigit (by decide)
  cases m <;> cases n <;> simp only [toString_ofNat, toString_negSucc] at h
  · rw [Nat.repr_injective h]
  · exact absurd h hsign
  · exact absurd h.symm hsign
  · have := Nat.repr_injective ((String.append_right_inj _).1 h)
    omega

/-- An integer is written with digits and a sign. -/
theorem int_chars {n : Int} {c : Char} (h : c ∈ (toString n).toList) :
    (c.isDigit || c == '-') = true := by
  cases n with
  | ofNat n => rw [isDigit_of_mem_toString h, Bool.true_or]
  | negSucc n =>
    rw [toString_negSucc, String.toList_append, mem_append] at h
    obtain h | h := h
    · simp_all
    · rw [isDigit_of_mem_toString h, Bool.true_or]

/-- An integer is known if what follows does not go on with it. -/
theorem int_append_inj {m n : Int} (hs : Stops s) (ht : Stops t)
    (h : (toString m).toList ++ s = (toString n).toList ++ t) : m = n ∧ s = t := by
  obtain ⟨hmn, rfl⟩ := span_append_inj _ (fun _ => int_chars) (fun _ => int_chars) hs ht h
  exact ⟨toString_int_inj (String.toList_inj.1 hmn), rfl⟩

/-- The same of a number without a sign. -/
theorem nat_append_inj {m n : Nat} (hs : Stops s) (ht : Stops t)
    (h : (toString m).toList ++ s = (toString n).toList ++ t) : m = n ∧ s = t := by
  obtain ⟨hmn, rfl⟩ := @int_append_inj s t m n hs ht h
  exact ⟨Int.ofNat.inj hmn, rfl⟩

end RefCount.Text
