/-
Sets of bits by their members. Each operation is given by what it does to
`contains`, whatever the storage of the sets; nothing else needs to look at
words.

# The loops

A merge goes through the words of the other set: every word gains its bits
(`word_addWords`), and a change is reported if a word has changed
(`addWords_changed`). A visitor is shown the bits of a word from the lowest up,
each cleared as it is shown (`bits_eq_cons`), so it sees the members in
ascending order (`visit_eq`, `toList_eq_filter`).
-/
import Mathlib
import RefCount.BitSet

namespace RefCount.BitSet

open Array

variable {s t : BitSet} {k x : Nat}

theorem word_eq (s : BitSet) (i : Nat) : s.word i = (s.words[i]?).getD 0#64 := by
  unfold word
  rw [getD_eq_getD_getElem?]

@[simp] theorem contains_empty : empty.contains x = false := by
  simp [contains, word_eq, empty]

/-- More storage has the same words. -/
theorem word_reserve (n i : Nat) : (s.reserve n).word i = s.word i := by
  rw [word_eq, word_eq, reserve, getElem?_append]
  split
  · rfl
  · next hi =>
    rw [getElem?_replicate, getElem?_eq_none (not_lt.1 hi)]
    split
    · rfl
    · rfl

/-- A changed word is there only if there was storage for it. -/
theorem word_modify (ws : Array (BitVec 64)) (j i : Nat) (g : BitVec 64 → BitVec 64) :
    word ⟨ws.modify j g⟩ i =
      if i = j ∧ j < ws.size then g (word ⟨ws⟩ i) else word ⟨ws⟩ i := by
  rw [word_eq, word_eq]
  dsimp only
  rw [getElem?_modify]
  by_cases hij : j = i
  · subst hij
    by_cases hj : j < ws.size
    · simp [hj]
    · simp [hj]
  · simp [hij, Ne.symm hij]

/-- Two places are the same if their words and their bits are. -/
theorem eq_of_div_mod (h : x / 64 = k / 64) (h' : x % 64 = k % 64) : x = k := by
  omega

/-- An element more. -/
@[simp] theorem contains_insert : (s.insert k).contains x = (decide (x = k) || s.contains x) := by
  have hsize : k / 64 < (s.reserve (k / 64 + 1)).words.size := by
    simp only [reserve, size_append, size_replicate]
    omega
  unfold contains insert
  rw [word_modify]
  by_cases hi : x / 64 = k / 64
  · rw [if_pos ⟨hi, hsize⟩, word_reserve, BitVec.getLsbD_or, BitVec.getLsbD_twoPow]
    have hlt : k % 64 < 64 := Nat.mod_lt _ (by decide)
    by_cases hx : x = k
    · subst hx
      simp [hlt]
    · have hbit : ¬k % 64 = x % 64 := fun h => hx (eq_of_div_mod hi h.symm)
      simp [hx, hbit]
  · have hx : x ≠ k := fun h => hi (by rw [h])
    rw [if_neg fun h => hi h.1, word_reserve]
    simp [hx]

theorem contains_ite_insert {p : Nat → Bool} : (if p k then s.insert k else s).contains x = true ↔
    (p x = true ∧ x = k) ∨ s.contains x = true := by
  split
  · next hk =>
    rw [contains_insert, Bool.or_eq_true, decide_eq_true_eq]
    refine or_congr_left ⟨?_, And.right⟩
    rintro rfl
    exact ⟨hk, rfl⟩
  · next hk => exact (or_iff_right fun ⟨hx, he⟩ => hk (he ▸ hx)).symm

/-- An element less. -/
@[simp] theorem contains_erase : (s.erase k).contains x = (decide (x ≠ k) && s.contains x) := by
  unfold contains erase
  rw [word_modify]
  by_cases hi : x / 64 = k / 64
  · have hlt : k % 64 < 64 := Nat.mod_lt _ (by decide)
    by_cases hsize : k / 64 < s.words.size
    · rw [if_pos ⟨hi, hsize⟩, BitVec.getLsbD_and, BitVec.getLsbD_not, BitVec.getLsbD_twoPow]
      have hlt' : x % 64 < 64 := Nat.mod_lt _ (by decide)
      by_cases hx : x = k
      · subst hx
        simp [hlt]
      · have hbit : ¬k % 64 = x % 64 := fun h => hx (eq_of_div_mod hi h.symm)
        simp [hx, hbit, hlt']
    · have hnone : s.words[x / 64]? = none := getElem?_eq_none (by omega)
      rw [if_neg fun h => hsize h.2, word_eq, hnone]
      simp
  · have hx : x ≠ k := fun h => hi (by rw [h])
    rw [if_neg fun h => hi h.1]
    simp [hx]

theorem word_setIfInBounds (ws : Array (BitVec 64)) {i : Nat} (hi : i < ws.size) (w : BitVec 64)
    (k : Nat) : word ⟨ws.setIfInBounds i w⟩ k = if k = i then w else word ⟨ws⟩ k := by
  rw [word_eq, word_eq]
  dsimp only
  rw [getElem?_setIfInBounds]
  by_cases hk : i = k
  · subst hk
    simp [hi]
  · simp [hk, Ne.symm hk]

/-- Each word gains the bits of the word that is added to it. -/
theorem word_addWords {ws : Array (BitVec 64)} (c : Bool) {i : Nat} {xs : List (BitVec 64)}
    (h : i + xs.length ≤ ws.size) (k : Nat) : word ⟨(addWords ws c i xs).1⟩ k =
      word ⟨ws⟩ k ||| if i ≤ k then xs.getD (k - i) 0#64 else 0#64 := by
  induction xs generalizing ws c i with
  | nil => simp [addWords]
  | cons x xs ih =>
    rw [List.length_cons] at h
    have hi : i < ws.size := by omega
    rw [addWords, ih _ (by rw [size_setIfInBounds]; omega), word_setIfInBounds ws hi]
    rcases lt_trichotomy k i with hk | rfl | hk
    · rw [if_neg (by omega), if_neg (by omega), if_neg (by omega)]
    · rw [if_pos rfl, if_neg (by omega), if_pos le_rfl, Nat.sub_self, List.getD_cons_zero,
        BitVec.or_zero]
      rfl
    · rw [if_neg (by omega), if_pos (by omega), if_pos (by omega),
        show k - i = k - (i + 1) + 1 by omega, List.getD_cons_succ]

/-- A change is reported if it was before, or if a word has changed. -/
theorem addWords_changed {ws : Array (BitVec 64)} (c : Bool) {i : Nat} {xs : List (BitVec 64)}
    (h : i + xs.length ≤ ws.size) : (addWords ws c i xs).2 = true ↔
      c = true ∨ ∃ k, word ⟨(addWords ws c i xs).1⟩ k ≠ word ⟨ws⟩ k := by
  induction xs generalizing ws c i with
  | nil => simp [addWords]
  | cons x xs ih =>
    rw [List.length_cons] at h
    have hi : i < ws.size := by omega
    have hrest : i + 1 + xs.length ≤ (ws.setIfInBounds i (ws.getD i 0#64 ||| x)).size := by
      rw [size_setIfInBounds]
      omega
    rw [addWords, ih _ hrest, Bool.or_eq_true, bne_iff_ne, or_assoc]
    refine or_congr_right ?_
    -- the words that are added later leave this one as it is now
    have hhere (c' : Bool) : word ⟨(addWords (ws.setIfInBounds i (ws.getD i 0#64 ||| x)) c' (i + 1)
        xs).1⟩ i = ws.getD i 0#64 ||| x := by
      rw [word_addWords _ hrest, word_setIfInBounds ws hi, if_pos rfl, if_neg (by omega),
        BitVec.or_zero]
    constructor
    · rintro (hne | ⟨k, hk⟩)
      · exact ⟨i, by rw [hhere]; exact hne⟩
      · by_cases hki : k = i
        · subst hki
          rw [hhere, word_setIfInBounds ws hi, if_pos rfl] at hk
          exact absurd rfl hk
        · rw [word_setIfInBounds ws hi, if_neg hki] at hk
          exact ⟨k, hk⟩
    · rintro ⟨k, hk⟩
      by_cases hki : k = i
      · subst hki
        rw [hhere] at hk
        exact .inl hk
      · exact .inr ⟨k, by rwa [word_setIfInBounds ws hi, if_neg hki]⟩

/-- There is room for the words of the other set. -/
theorem reserve_fits (s t : BitSet) :
    0 + t.words.toList.length ≤ (s.reserve t.words.size).words.size := by
  simp only [reserve, size_append, size_replicate, length_toList]
  omega

/-- Words are joined bit by bit. -/
theorem word_union (s t : BitSet) (i : Nat) : (s.union t).word i = s.word i ||| t.word i := by
  show word ⟨(addWords _ _ _ _).1⟩ i = _
  rw [word_addWords _ (reserve_fits s t), if_pos (Nat.zero_le i), Nat.sub_zero,
    List.getD_eq_getElem?_getD, getElem?_toList, ← word_eq]
  exact congrArg (· ||| t.word i) (word_reserve _ i)

/-- A member of either set. -/
@[simp] theorem contains_union : (s.union t).contains x = (s.contains x || t.contains x) := by
  unfold contains
  rw [word_union, BitVec.getLsbD_or]

/-- A member of the first set only. -/
@[simp] theorem contains_diff : (s.diff t).contains x = (s.contains x && !t.contains x) := by
  have hword : (s.diff t).word (x / 64) = s.word (x / 64) &&& ~~~(t.word (x / 64)) := by
    rw [word_eq (s.diff t), word_eq s]
    unfold diff
    rw [getElem?_mapIdx]
    cases s.words[x / 64]? with
    | none => simp
    | some w => rfl
  have hlt : x % 64 < 64 := Nat.mod_lt _ (by decide)
  unfold contains
  rw [hword, BitVec.getLsbD_and, BitVec.getLsbD_not]
  simp [hlt]

/-- Sets that are the same have the same words, but for zeros at the end. -/
theorem word_of_same (h : s.same t = true) (i : Nat) : s.word i = t.word i := by
  by_cases hi : i < max s.words.size t.words.size
  · exact eq_of_beq (List.all_eq_true.1 h _ (List.mem_range.2 hi))
  · rw [word_eq, word_eq, getElem?_eq_none (by omega), getElem?_eq_none (by omega)]

/-- Sets that are found the same have the same members. -/
theorem contains_of_same (h : s.same t = true) (x : Nat) : s.contains x = t.contains x := by
  unfold contains
  rw [word_of_same h]

/-- Sets with the same members are the same. -/
theorem same_of_contains (h : ∀ x, s.contains x = t.contains x) : s.same t = true := by
  unfold same
  rw [List.all_eq_true]
  intro i _
  rw [beq_iff_eq]
  refine BitVec.eq_of_getLsbD_eq fun j hj => ?_
  have hbit := h (64 * i + j)
  unfold contains at hbit
  rwa [show (64 * i + j) / 64 = i by omega, show (64 * i + j) % 64 = j by omega] at hbit

/-- A merge reports a change if the result is not the same set. -/
theorem merge_eq (s t : BitSet) : s.merge t = (s.union t, !(s.union t).same s) := by
  refine Prod.ext rfl (Bool.eq_iff_iff.2 ?_)
  have hwords : (∃ k, (s.union t).word k ≠ s.word k) ↔ ¬(s.union t).same s = true := by
    constructor
    · rintro ⟨k, hk⟩ hsame
      exact hk (word_of_same hsame k)
    · intro hsame
      by_contra hall
      refine hsame (same_of_contains fun x => ?_)
      rw [contains, contains, not_not.1 fun hne => hall ⟨x / 64, hne⟩]
  rw [Bool.not_eq_true', ← Bool.not_eq_true, ← hwords]
  refine (addWords_changed false (reserve_fits s t)).trans ?_
  simp only [Bool.false_eq_true, false_or]
  exact exists_congr fun k => by rw [← word_reserve (s := s) t.words.size k]; rfl

-- ======== the members in order

/-- The bits of a word that are set, in ascending order. -/
def bits (w : BitVec 64) : List Nat := (List.range 64).filter w.getLsbD

/-- The bits of a word that are set. -/
theorem mem_bits {w : BitVec 64} {j : Nat} : j ∈ bits w ↔ w.getLsbD j = true := by
  rw [bits, List.mem_filter, List.mem_range, and_iff_right_iff_imp]
  exact BitVec.lt_of_getLsbD

theorem sorted_bits (w : BitVec 64) : (bits w).Pairwise (· < ·) :=
  List.pairwise_lt_range.filter _

theorem bits_zero : bits 0#64 = [] := by
  rw [bits, List.filter_eq_nil_iff]
  simp

/-- Clearing the lowest bit leaves the others. -/
theorem mem_bits_clearLowest {w : BitVec 64} {j : Nat} :
    j ∈ bits (clearLowest w) ↔ j ∈ bits w ∧ j ≠ w.ctz.toNat := by
  rw [mem_bits, mem_bits, clearLowest, BitVec.getLsbD_and, BitVec.getLsbD_not,
    BitVec.getLsbD_twoPow, Bool.and_eq_true, and_congr_right_iff]
  intro hj
  have hlt := BitVec.lt_of_getLsbD hj
  by_cases hne : w.ctz.toNat = j
  · simp [hne, hlt]
  · simp [hne, hlt, Ne.symm hne]

/-- The lowest bit comes first. -/
theorem bits_eq_cons {w : BitVec 64} (h : w ≠ 0#64) :
    bits w = w.ctz.toNat :: bits (clearLowest w) := by
  have hlow := mem_bits.2 (BitVec.getLsbD_true_ctz_of_ne_zero h)
  have hleast : ∀ j ∈ bits (clearLowest w), w.ctz.toNat < j := by
    intro j hj
    obtain ⟨hj, hne⟩ := mem_bits_clearLowest.1 hj
    by_contra hlt
    have := BitVec.getLsbD_false_of_lt_ctz (x := w) (i := j) (by omega)
    rw [mem_bits.1 hj] at this
    cases this
  refine (sorted_bits w).eq_of_mem_iff (List.pairwise_cons.2 ⟨hleast, sorted_bits _⟩) fun j => ?_
  rw [List.mem_cons, mem_bits_clearLowest]
  by_cases hj : j = w.ctz.toNat
  · simp [hj, hlow]
  · simp [hj]

/-- The keys of words that stand from a place on. -/
def keysFrom : Nat → List (BitVec 64) → List Nat
  | _, [] => []
  | i, w :: ws => (bits w).map (i * 64 + ·) ++ keysFrom (i + 1) ws

section Visit

variable {σ : Type} (f : σ → Nat → σ × Bool)

/-- Shows keys to a visitor until it has seen enough, and says whether it has
not. -/
def visitAll : List Nat → σ → σ × Bool
  | [], a => (a, true)
  | k :: ks, a =>
    match f a k with
    | (b, true) => visitAll ks b
    | (b, false) => (b, false)

/-- The loop over a word visits its bits in order. By induction along the loop.
-/
theorem visitWord_eq (i : Nat) (w : BitVec 64) (a : σ) :
    visitWord f i w a = visitAll f ((bits w).map (i * 64 + ·)) a := by
  fun_induction visitWord f i w a with
  | case1 => rw [bits_zero, List.map_nil, visitAll]
  | case2 w a hw b hf ih => rw [bits_eq_cons hw, List.map_cons, visitAll, hf, ih]
  | case3 w a hw b hf => rw [bits_eq_cons hw, List.map_cons, visitAll, hf]

/-- A visit goes on unless it was told to stop. -/
theorem visitAll_append (ks ls : List Nat) (a : σ) : (visitAll f (ks ++ ls) a).1 =
    match visitAll f ks a with
    | (b, true) => (visitAll f ls b).1
    | (b, false) => b := by
  induction ks generalizing a with
  | nil => rfl
  | cons k ks ih =>
    rw [List.cons_append, visitAll, visitAll]
    cases f a k with
    | mk b goOn =>
      cases goOn with
      | false => rfl
      | true => exact ih b

/-- The loop over words visits their bits one word after the other. -/
theorem visitWords_eq (i : Nat) (ws : List (BitVec 64)) (a : σ) :
    visitWords f i ws a = (visitAll f (keysFrom i ws) a).1 := by
  induction ws generalizing i a with
  | nil => rfl
  | cons w ws ih =>
    rw [visitWords, keysFrom, visitAll_append, visitWord_eq]
    cases visitAll f ((bits w).map (i * 64 + ·)) a with
    | mk b goOn =>
      cases goOn with
      | false => rfl
      | true => exact ih (i + 1) b

end Visit

/-- The list is what a visit to all members collects. -/
theorem toList_eq (s : BitSet) : s.toList = keysFrom 0 s.words.toList := by
  have hpush : ∀ (ks : List Nat) (seen : Array Nat),
      (visitAll (fun ks k => (ks.push k, true)) ks seen).1.toList = seen.toList ++ ks := by
    intro ks
    induction ks with
    | nil => exact fun seen => (List.append_nil _).symm
    | cons k ks ih => exact fun seen => (ih _).trans (by simp)
  rw [toList, visit, visitWords_eq, hpush, List.nil_append]

/-- A visit goes over the list of members. -/
theorem visit_eq {σ : Type} (s : BitSet) (f : σ → Nat → σ × Bool) (a : σ) :
    s.visit f a = (visitAll f s.toList a).1 := by
  rw [visit, visitWords_eq, toList_eq]

/-- A number is found in the word that it belongs to. -/
theorem mem_keysFrom {i : Nat} {ws : List (BitVec 64)} :
    x ∈ keysFrom i ws ↔ i * 64 ≤ x ∧ (ws.getD (x / 64 - i) 0#64).getLsbD (x % 64) = true := by
  induction ws generalizing i with
  | nil => simp [keysFrom]
  | cons w ws ih =>
    rw [keysFrom, List.mem_append, ih, List.mem_map]
    constructor
    · rintro (⟨j, hj, rfl⟩ | ⟨hx, hbit⟩)
      · have hlt := BitVec.lt_of_getLsbD (mem_bits.1 hj)
        refine ⟨by omega, ?_⟩
        rw [show (i * 64 + j) / 64 - i = 0 by omega, show (i * 64 + j) % 64 = j by omega]
        exact mem_bits.1 hj
      · refine ⟨by omega, ?_⟩
        rwa [show x / 64 - i = x / 64 - (i + 1) + 1 by omega, List.getD_cons_succ]
    · rintro ⟨hx, hbit⟩
      by_cases hi : x / 64 = i
      · rw [hi, Nat.sub_self, List.getD_cons_zero] at hbit
        exact .inl ⟨x % 64, mem_bits.2 hbit, by omega⟩
      · rw [show x / 64 - i = x / 64 - (i + 1) + 1 by omega, List.getD_cons_succ] at hbit
        exact .inr ⟨by omega, hbit⟩

/-- The list has the members. -/
@[simp] theorem mem_toList : x ∈ s.toList ↔ s.contains x = true := by
  rw [toList_eq, mem_keysFrom, List.getD_eq_getElem?_getD, getElem?_toList, Nat.sub_zero, ← word_eq]
  simp [contains]

theorem sorted_keysFrom (i : Nat) (ws : List (BitVec 64)) :
    (keysFrom i ws).Pairwise (· < ·) := by
  induction ws generalizing i with
  | nil => exact .nil
  | cons w ws ih =>
    refine List.pairwise_append.2 ⟨?_, ih (i + 1), ?_⟩
    · exact List.pairwise_map.2 ((sorted_bits w).imp fun h => Nat.add_lt_add_left h _)
    · intro x hx y hy
      obtain ⟨j, hj, rfl⟩ := List.mem_map.1 hx
      have hlt := BitVec.lt_of_getLsbD (mem_bits.1 hj)
      have hle := (mem_keysFrom.1 hy).1
      omega

/-- They are listed in increasing order. -/
theorem sorted_toList : s.toList.Pairwise (· < ·) := by
  rw [toList_eq]
  exact sorted_keysFrom 0 _

theorem nodup_toList : s.toList.Nodup := sorted_toList.imp Nat.ne_of_lt

/-- Members are within the storage. -/
theorem lt_of_contains (h : s.contains x = true) : x < 64 * s.words.size := by
  by_contra hx
  unfold contains at h
  rw [word_eq, getElem?_eq_none (by omega)] at h
  simp at h

/-- The members in order are the numbers within the storage that are members. -/
theorem toList_eq_filter (s : BitSet) :
    s.toList = (List.range (64 * s.words.size)).filter s.contains := by
  refine sorted_toList.eq_of_mem_iff (List.pairwise_lt_range.filter _) fun x => ?_
  rw [mem_toList, List.mem_filter, List.mem_range]
  exact ⟨fun h => ⟨lt_of_contains h, h⟩, And.right⟩

@[simp] theorem contains_ofList {ks : List Nat} : (ofList ks).contains x = ks.contains x := by
  have hfold : ∀ (ks : List Nat) (s : BitSet),
      (ks.foldl insert s).contains x = (ks.contains x || s.contains x) := by
    intro ks
    induction ks with
    | nil => exact fun s => by simp
    | cons k ks ih =>
      intro s
      rw [List.foldl_cons, ih, contains_insert, List.contains_cons]
      by_cases hx : x = k
      · simp [hx]
      · simp [hx, beq_false_of_ne hx]
  rw [ofList, hfold, contains_empty, Bool.or_false]

/-- The number of members is the length of the list. -/
theorem size_eq_length : s.size = s.toList.length := by
  -- the last word holds the last 64 places
  have hcount : ∀ ws : List (BitVec 64), (List.range (64 * ws.length)).countP
      (contains ⟨ws.toArray⟩) = ws.foldl (fun n w => n + (List.range 64).countP w.getLsbD) 0 := by
    intro ws
    induction ws using List.reverseRecOn with
    | nil => rfl
    | append_singleton ws w ih =>
      have hlow : ∀ x ∈ List.range (64 * ws.length),
          (contains ⟨(ws ++ [w]).toArray⟩ x = true ↔ contains ⟨ws.toArray⟩ x = true) := by
        intro x hx
        have hin : x / 64 < ws.length := by have := List.mem_range.1 hx; omega
        simp [contains, word_eq, List.getElem?_append_left hin]
      have hhigh : ∀ x ∈ List.range 64,
          (contains ⟨(ws ++ [w]).toArray⟩ (64 * ws.length + x) = true ↔ w.getLsbD x = true) := by
        intro x hx
        have hlt := List.mem_range.1 hx
        simp [contains, word_eq, show (64 * ws.length + x) / 64 = ws.length by omega,
          show (64 * ws.length + x) % 64 = x by omega]
      rw [List.length_append, List.length_singleton, mul_add, mul_one,
        List.range_add, List.countP_append, List.countP_map, List.countP_congr hlow, ih,
        List.foldl_append, List.foldl_cons, List.foldl_nil]
      exact congrArg _ (List.countP_congr hhigh)
  rw [toList_eq_filter, ← List.countP_eq_length_filter, size, ← Array.foldl_toList, ← hcount,
    Array.length_toList]

end RefCount.BitSet
