/-
Sets of bits in registers. Each step on a register does to its members what
the same operation does to a finite set of naturals (`Step.run_holds`), so a
whole history does (`runs_hold`); what the sets report is then read off the
members.
-/
import RefCount.Proofs.BitSet

namespace RefCount.BitSet

open List

variable {s t : BitSet}

-- ======== visitors

/-- A visit goes over the first members, and stops before others only if it is
told to. -/
theorem visitAll_eq {σ : Type} (f : σ → Nat → σ × Bool) (ks : List Nat) (a : σ) :
    ∃ seen rest, ks = seen ++ rest ∧ (visitAll f ks a).1 = seen.foldl (fun a k => (f a k).1) a ∧
      (rest ≠ [] → ∃ before k, seen = before ++ [k] ∧
        (f (before.foldl (fun a k => (f a k).1) a) k).2 = false) := by
  induction ks generalizing a with
  | nil => exact ⟨[], [], rfl, rfl, fun h => absurd rfl h⟩
  | cons k ks ih =>
    rw [visitAll]
    cases hk : f a k with
    | mk b goOn =>
      cases goOn with
      | false => exact ⟨[k], ks, rfl, by simp [hk], fun _ => ⟨[], k, rfl, by simp [hk]⟩⟩
      | true =>
        obtain ⟨seen, rest, rfl, hvisit, hstop⟩ := ih b
        refine ⟨k :: seen, rest, rfl, by simp [hk, hvisit], fun hrest => ?_⟩
        obtain ⟨before, last, rfl, hlast⟩ := hstop hrest
        exact ⟨k :: before, last, rfl, by simpa [hk] using hlast⟩

-- ======== histories

/-- What is done to sets in registers. -/
inductive Step (ι : Type) where
  | insert (r : ι) (k : Nat)
  | erase (r : ι) (k : Nat)
  | merge (r s : ι)
  | diff (r s : ι)
  | copy (r s : ι)

section Registers

variable {ι : Type} [DecidableEq ι]

def Step.run (m : ι → BitSet) : Step ι → ι → BitSet
  | insert r k => Function.update m r ((m r).insert k)
  | erase r k => Function.update m r ((m r).erase k)
  | merge r s => Function.update m r ((m r).merge (m s)).1
  | diff r s => Function.update m r ((m r).diff (m s))
  | copy r s => Function.update m r (m s)

/-- The same, done to sets of numbers. -/
def Step.meant (m : ι → Finset ℕ) : Step ι → ι → Finset ℕ
  | insert r k => Function.update m r (Insert.insert k (m r))
  | erase r k => Function.update m r ((m r).erase k)
  | merge r s => Function.update m r (m r ∪ m s)
  | diff r s => Function.update m r (m r \ m s)
  | copy r s => Function.update m r (m s)

/-- A set has some members and no others. -/
def Holds (s : BitSet) (a : Finset ℕ) : Prop := ∀ k, s.contains k = true ↔ k ∈ a

theorem Holds.union {a b : Finset ℕ} (hs : s.Holds a) (ht : t.Holds b) :
    (s.union t).Holds (a ∪ b) := fun k => by
  rw [contains_union, Bool.or_eq_true, hs k, ht k, Finset.mem_union]

/-- Registers that hold what is meant still do if one is changed as is meant.
-/
theorem Holds.update {m : ι → BitSet} {n : ι → Finset ℕ} {a : Finset ℕ}
    (h : ∀ r, (m r).Holds (n r)) (hs : s.Holds a) (q r : ι) :
    (Function.update m q s r).Holds (Function.update n q a r) := by
  rw [Function.update_apply, Function.update_apply]
  split
  · exact hs
  · exact h r

/-- Each step does what is meant. -/
theorem Step.run_holds {m : ι → BitSet} {n : ι → Finset ℕ} (h : ∀ r, (m r).Holds (n r))
    (step : Step ι) (r : ι) : (step.run m r).Holds (step.meant n r) := by
  cases step with
  | insert q k => exact .update h (fun x => by simp [← h q x]) q r
  | erase q k => exact .update h (fun x => by simp [← h q x]) q r
  | merge q s => exact .update h ((h q).union (h s)) q r
  | diff q s => exact .update h (fun x => by simp [← h q x, ← h s x]) q r
  | copy q s => exact .update h (h s) q r

/-- So do steps from empty registers on. By induction on the steps. -/
theorem runs_hold (steps : List (Step ι)) (r : ι) :
    (steps.foldl Step.run (fun _ => empty) r).Holds (steps.foldl Step.meant (fun _ => ∅) r) := by
  have hfold : ∀ (steps : List (Step ι)) (m : ι → BitSet) (n : ι → Finset ℕ),
      (∀ r, (m r).Holds (n r)) →
      ∀ r, (steps.foldl Step.run m r).Holds (steps.foldl Step.meant n r) := by
    intro steps
    induction steps with
    | nil => exact fun m n h => h
    | cons step steps ih => exact fun m n h => ih _ _ (step.run_holds h)
  exact hfold steps _ _ (fun _ => by simp [Holds]) r

/-- Two sets are the same if they have the same members, whatever their words.
-/
theorem Holds.same_iff {a b : Finset ℕ} (hs : s.Holds a) (ht : t.Holds b) :
    s.same t = true ↔ a = b := by
  constructor
  · intro h
    ext k
    rw [← hs k, ← ht k, contains_of_same h]
  · rintro rfl
    exact same_of_contains fun x => Bool.eq_iff_iff.2 ((hs x).trans (ht x).symm)

/-- A merge says whether it has added anything. -/
theorem Holds.merge_grows {a b : Finset ℕ} (hs : s.Holds a) (ht : t.Holds b) :
    (s.merge t).2 = true ↔ a ⊂ a ∪ b := by
  rw [merge_eq, Bool.not_eq_true', ← Bool.not_eq_true, (hs.union ht).same_iff hs,
    Finset.ssubset_iff_subset_ne]
  exact ⟨fun h => ⟨Finset.subset_union_left, Ne.symm h⟩, fun h => Ne.symm h.2⟩

/-- Sets of bits are finite sets of naturals, whatever was done to them and to
others before: a register has the members that the same operations give it; a
merge reports that the set has grown; two sets are the same if they have the
same members; the members are listed in ascending order, and counted; and a
visitor sees the first of them, up to the one after which it has seen enough. -/
theorem registers_agree (steps : List (Step ι)) (r s : ι) :
    let m := steps.foldl Step.run fun _ => empty
    let n := steps.foldl Step.meant fun _ => ∅
    (∀ k, (m r).contains k = true ↔ k ∈ n r) ∧
    (((m r).merge (m s)).2 = true ↔ n r ⊂ n r ∪ n s) ∧
    ((m r).same (m s) = true ↔ n r = n s) ∧
    (m r).toList.Pairwise (· < ·) ∧ (∀ k, k ∈ (m r).toList ↔ k ∈ n r) ∧
    (m r).size = (m r).toList.length ∧
    ∀ {σ : Type} (f : σ → Nat → σ × Bool) (a : σ), ∃ seen rest, (m r).toList = seen ++ rest ∧
      (m r).visit f a = seen.foldl (fun a k => (f a k).1) a ∧
      (rest ≠ [] → ∃ before k, seen = before ++ [k] ∧
        (f (before.foldl (fun a k => (f a k).1) a) k).2 = false) := by
  intro m n
  have hr := runs_hold steps r
  have hs := runs_hold steps s
  refine ⟨hr, hr.merge_grows hs, hr.same_iff hs, sorted_toList, fun k => mem_toList.trans (hr k),
    size_eq_length, fun f a => ?_⟩
  rw [visit_eq]
  exact visitAll_eq f _ a

end Registers

end RefCount.BitSet
