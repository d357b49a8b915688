/-
Queues by what goes in and comes out. A queue is lawful if what it holds is a
rearrangement of what has been put in and not yet taken out. The heap is: it
only ever exchanges the numbers at two places.
-/
import Mathlib
import RefCount.Queue

namespace RefCount.Queue

open Array

/-- A queue gives out each number that goes in, once. -/
structure Lawful (q : Queue) : Prop where
  empty : q.toList q.empty = []
  push : ∀ h x, (q.toList (q.push h x)).Perm (x :: q.toList h)
  pop_none : ∀ h, q.pop? h = none → q.toList h = []
  pop_some : ∀ h x rest, q.pop? h = some (x, rest) → (q.toList h).Perm (x :: q.toList rest)

-- ======== heaps

variable {before : Nat → Nat → Bool}

/-- Two numbers change places. -/
theorem swapIfInBounds_perm (h : Array Nat) (i j : Nat) : (h.swapIfInBounds i j).Perm h := by
  unfold swapIfInBounds
  split
  · split
    · exact swap_perm _ _
    · exact .refl h
  · exact .refl h

/-- A number that moves up changes places only. -/
theorem siftUp_perm (h : Array Nat) (i : Nat) : (siftUp before h i).Perm h := by
  fun_induction siftUp before h i with
  | case1 => exact .refl _
  | case2 h i hi up hb ih => exact ih.trans (swapIfInBounds_perm h i up)
  | case3 => exact .refl _

/-- So does one that moves down. -/
theorem siftDown_perm (steps : Nat) (h : Array Nat) (i : Nat) :
    (siftDown before steps h i).Perm h := by
  fun_induction siftDown before steps h i with
  | case1 => exact .refl _
  | case2 => exact .refl _
  | case3 _ h i c _ _ ih => exact ih.trans (swapIfInBounds_perm h i c)
  | case4 => exact .refl _

/-- The first number is the last one after they have been exchanged. -/
theorem perm_pop_swap {h : Array Nat} {x : Nat} (hx : h[0]? = some x) :
    h.toList.Perm (x :: (h.swapIfInBounds 0 (h.size - 1)).pop.toList) := by
  obtain ⟨hpos, rfl⟩ := Array.getElem?_eq_some_iff.1 hx
  have hlast : h.size - 1 < h.size := by omega
  have hswap : h.swapIfInBounds 0 (h.size - 1) = h.swap 0 (h.size - 1) hpos hlast := by
    unfold swapIfInBounds
    rw [dif_pos hpos, dif_pos hlast]
  have hperm := (perm_iff_toList_perm.1 (swapIfInBounds_perm h 0 (h.size - 1))).symm
  have hne : (h.swapIfInBounds 0 (h.size - 1)).toList ≠ [] := by
    intro hnil
    rw [hnil] at hperm
    have := hperm.length_eq
    simp only [length_toList, List.length_nil] at this
    omega
  have hback : (h.swapIfInBounds 0 (h.size - 1)).toList.getLast hne = h[0] := by
    simp only [hswap, List.getLast_eq_getElem, getElem_toList, length_toList,
      size_swap, getElem_swap_right]
  rw [toList_pop]
  refine hperm.trans ?_
  nth_rewrite 1 [← List.dropLast_append_getLast hne]
  rw [hback]
  exact List.perm_append_singleton _ _

/-- The heap gives out each number that goes in, once. -/
theorem lawful_byRank (rank : Nat → Nat) : (byRank rank).Lawful where
  empty := rfl
  push (h : Array Nat) x := by
    have hperm := perm_iff_toList_perm.1
      (@siftUp_perm (fun a b => rank a < rank b) (h.push x) h.size)
    refine hperm.trans ?_
    rw [toList_push]
    exact List.perm_append_singleton _ _
  pop_none (h : Array Nat) hnone := by
    unfold byRank at hnone
    dsimp only at hnone
    split at hnone
    · next h0 =>
      show h.toList = []
      simpa using h0
    · cases hnone
  pop_some (h : Array Nat) x rest hsome := by
    unfold byRank at hsome
    dsimp only at hsome
    split at hsome
    · cases hsome
    · next y hy =>
      obtain ⟨rfl, rfl⟩ := Prod.mk.inj (Option.some.inj hsome)
      exact (perm_pop_swap hy).trans
        ((Array.perm_iff_toList_perm.1 (siftDown_perm _ _ _)).symm.cons y)

end RefCount.Queue
