/-
The dominator tree of an arbitrary graph: there may be blocks that cannot be
reached, edges that lead back to the entry or to no block at all, and loops that
are entered in several places. The search for it ends (`Settles`), its chains
hold what every way passes, and the entry of a block is its closest dominator.
-/
import Mathlib
import RefCount.Proofs.Ir.Dominators

namespace RefCount.Ir

namespace Func

variable {f : Func} {a b c i j : BlockId} {k : Nat}

/-- The blocks on a way from the entry to a block, the last one first. -/
inductive Way (f : Func) : BlockId → List BlockId → Prop
  | entry : Way f f.entry [f.entry]
  | edge {b t : BlockId} {way : List BlockId} (h : Way f b way) (ht : t ∈ f.successors b) :
      Way f t (t :: way)

/-- Whether a block is there and some way leads to it. -/
def IsReached (f : Func) (b : BlockId) : Prop := b < f.blocks.size ∧ ∃ way, f.Way b way

/-- Whether a block is on every way to another, and is another. -/
def StrictlyDominates (f : Func) (a b : BlockId) : Prop :=
  a ≠ b ∧ ∀ way, f.Way b way → a ∈ way

/-- Whether a block is the closest of those that are on every way to another:
all of those are on every way to it. -/
def IsClosest (f : Func) (i b : BlockId) : Prop :=
  f.StrictlyDominates i b ∧
    ∀ c, f.StrictlyDominates c b → ∀ way, f.Way i way → c ∈ way

theorem reachable_iff_way : f.Reachable b ↔ ∃ way, f.Way b way := by
  constructor
  · intro h
    induction h with
    | entry => exact ⟨_, .entry⟩
    | edge _ ht ih => exact ⟨_, .edge ih.choose_spec ht⟩
  · rintro ⟨way, h⟩
    induction h with
    | entry => exact .entry
    | edge _ ht ih => exact .edge ih ht

/-- The ways around a block, with or without the edges that go back counted. -/
theorem dodges_iff_way : (∃ k, f.Dodges a k b) ↔ ∃ way, f.Way b way ∧ a ∉ way := by
  constructor
  · rintro ⟨k, h⟩
    induction h with
    | entry h => exact ⟨_, .entry, by simpa using Ne.symm h⟩
    | forward _ hc _ hne ih =>
      obtain ⟨way, hway, ha⟩ := ih
      exact ⟨_, .edge hway hc, by simp [Ne.symm hne, ha]⟩
    | back _ hc hne ih =>
      obtain ⟨way, hway, ha⟩ := ih
      exact ⟨_, .edge hway hc, by simp [Ne.symm hne, ha]⟩
  · rintro ⟨way, h, ha⟩
    induction h with
    | entry => exact ⟨0, .entry fun he => ha (by simp [he])⟩
    | edge _ ht ih =>
      rw [List.mem_cons, not_or] at ha
      obtain ⟨k, hk⟩ := ih ha.2
      exact ⟨k + 1, .back hk ht (Ne.symm ha.1)⟩

theorem dominates_iff_way : f.Dominates a b ↔ ∀ way, f.Way b way → a ∈ way := by
  rw [Dominates, ← not_exists, dodges_iff_way]
  simp

end Func

namespace Dominators

open Func

variable {f : Func} {a b i : BlockId}

/-- What the dominators of a function are. -/
structure Exact (f : Func) (d : Dominators) : Prop where
  dominates : ∀ a b, d.dominates a b = true ↔
    f.IsReached a ∧ f.IsReached b ∧ ∀ way, f.Way b way → a ∈ way
  closest : ∀ b, f.IsReached b → b ≠ f.entry →
    ∃ i, d.idom b = some i ∧ f.IsClosest i b ∧ ∀ j, f.IsClosest j b → j = i
  none : ∀ b, ¬f.IsReached b → d.idom b = none

section

variable (hf : Numbered f)
include hf

theorem isReached_iff :
    f.dominators.isReachable b = true ↔ f.IsReached b := by
  rw [isReachable_iff hf, and_comm, IsReached, reachable_iff_way]

theorem dominates_iff_isReached : f.dominators.dominates a b = true ↔
    f.IsReached a ∧ f.IsReached b ∧ ∀ way, f.Way b way → a ∈ way := by
  constructor
  · intro h
    have hparts := h
    rw [Dominators.dominates, Bool.and_eq_true, Bool.and_eq_true] at hparts
    obtain ⟨hreach, hlt⟩ := (isReachable_iff hf).1 hparts.1.2
    exact ⟨(isReached_iff hf).1 hparts.1.1, (isReached_iff hf).1 hparts.1.2,
      dominates_iff_way.1 ((dominates_iff hf hreach hlt).1 h)⟩
  · rintro ⟨-, hb, h⟩
    obtain ⟨hreach, hlt⟩ := (isReachable_iff hf).1 ((isReached_iff hf).2 hb)
    exact (dominates_iff hf hreach hlt).2 (dominates_iff_way.2 h)

/-- The entry of a block is on every way to it. -/
theorem dominates_of_idom (hi : f.dominators.idom b = some i) :
    f.Dominates i b := by
  have hb : f.dominators.isReachable b = true := by rw [isReachable, hi]; rfl
  obtain ⟨hreach, hlt⟩ := (isReachable_iff hf).1 hb
  have hd := (settled_dominators hf).rooted
  refine (dominates_iff hf hreach hlt).1 ?_
  unfold Dominators.dominates
  have hsteps : f.place b ≤ f.dominators.size := by
    rw [hd.size]
    exact (place_lt (hd.known b hb)).le
  have habove : f.dominators.Above i b := .up hi (.refl i)
  rw [Bool.and_eq_true, Bool.and_eq_true]
  exact ⟨⟨hd.up b i hi, hb⟩, (dominatesWithin_iff hd hsteps hf.entry hb).2 habove⟩

/-- The entry of a block is its only closest dominator. -/
theorem closest_of_idom (hne : b ≠ f.entry)
    (hi : f.dominators.idom b = some i) :
    f.IsClosest i b ∧ ∀ j, f.IsClosest j b → j = i := by
  have hd := (settled_dominators hf).rooted
  have hplaced := hd.placed b i hne hi
  have hib : i ≠ b := fun he => absurd (he ▸ hplaced.earlier) (lt_irrefl _)
  have hdom := dominates_of_idom hf hi
  have hstrict : f.StrictlyDominates i b := ⟨hib, dominates_iff_way.1 hdom⟩
  refine ⟨⟨hstrict, fun c hc => dominates_iff_way.1 ?_⟩, ?_⟩
  · exact hplaced.strict c (dominates_iff_way.2 hc.2) hc.1
  · -- each of two closest ones is on every way to the other
    rintro j ⟨hj, hclosest⟩
    have hji : f.Dominates j i := hplaced.strict j (dominates_iff_way.2 hj.2) hj.1
    have hij : f.Dominates i j := dominates_iff_way.2 (hclosest i hstrict)
    have hik := hd.up b i hi
    have habove := hd.above_of_dominates hik hji
    have hjk := hd.isSome_of_above habove hik
    exact place_inj (hd.known j hjk)
      ((hd.place_le habove).antisymm (hd.place_le (hd.above_of_dominates hjk hij)))

theorem checkFlow_ok : f.checkFlow = .ok () := by
  have hpreds : (f.reversePostorder.drop 1).all (fun b => (f.preds b).all (· < f.blocks.size)) := by
    simp only [List.all_eq_true, decide_eq_true_eq]
    exact fun b _ p hp => lt_of_mem_successors ((mem_preds_iff hf.id).1 hp)
  rw [checkFlow, if_neg (not_le.2 hf.entry), if_pos hpreds]

theorem settles_dominators :
    Settles f (f.placesIn f.reversePostorder) (f.reversePostorder.drop 1)
      ((Array.replicate f.blocks.size none).setIfInBounds f.entry (some f.entry))
      f.dominators := by
  have hpos : 0 < f.blocks.size := Nat.zero_lt_of_lt hf.entry
  by_cases hone : f.blocks.size = 1
  · -- there is nothing to pass over
    have hnil : f.reversePostorder.drop 1 = [] :=
      List.drop_of_length_le (hone ▸ length_reversePostorder_le f)
    unfold dominators
    dsimp only
    rw [hnil]
    exact .done (.nil _)
  · have hsize : 2 * f.blocks.size ≤ f.blocks.size * f.blocks.size :=
      Nat.mul_le_mul_right _ (by omega)
    exact (settled_start hf).settles hf (by omega)

end

/-- In every graph with an entry whose blocks carry their numbers, the search
for dominators has an answer: its passes end. A block dominates another exactly
if both can be reached and every way to the second passes the first; the entry
of a block that can be reached is its one closest dominator, and a block that
cannot be reached has none. -/
theorem dominators_exact (hf : Numbered f) :
    f.checkFlow = .ok () ∧
    Settles f (f.placesIn f.reversePostorder) (f.reversePostorder.drop 1)
      ((Array.replicate f.blocks.size none).setIfInBounds f.entry (some f.entry))
      f.dominators ∧
    Exact f f.dominators := by
  refine ⟨checkFlow_ok hf, settles_dominators hf, fun a b => dominates_iff_isReached hf,
    fun b hb hne => ?_, fun b hb => ?_⟩
  · obtain ⟨i, hi⟩ := Option.isSome_iff_exists.1 ((isReached_iff hf).2 hb)
    exact ⟨i, hi, closest_of_idom hf hne hi⟩
  · exact Option.not_isSome_iff_eq_none.1 fun h => hb ((isReached_iff hf).1 h)

/-- A loop that is entered in two places and leads back to the entry, a block
that leads to itself and to no block, and one that cannot be reached. -/
def tangled : Func where
  name := "tangled"
  params := []
  result := .unit
  blocks := #[⟨0, [], [], some (.branch 0 (some 1) (some 2))⟩,
    ⟨1, [], [], some (.branch 0 (some 2) (some 3))⟩,
    ⟨2, [], [], some (.branch 0 (some 1) (some 0))⟩,
    ⟨3, [], [], some (.branch 0 (some 3) (some 9))⟩,
    ⟨4, [], [], some (.jump (some 3) [])⟩]
  entry := 0
  types := #[]

theorem tangled_dominators_exact : Numbered tangled ∧ tangled.checkFlow = .ok () ∧
    Settles tangled (tangled.placesIn tangled.reversePostorder)
      (tangled.reversePostorder.drop 1)
      ((Array.replicate tangled.blocks.size none).setIfInBounds tangled.entry
        (some tangled.entry)) tangled.dominators ∧
    Exact tangled tangled.dominators := by
  have hid : ∀ i < 5, (tangled.block? i).all (·.id = i) := by decide
  have hnumbered : Numbered tangled := by
    refine ⟨by decide, fun i block hb => ?_⟩
    have hlt : i < 5 := (Array.getElem?_eq_some_iff.1 hb).1
    simpa [hb] using hid i hlt
  exact ⟨hnumbered, dominators_exact hnumbered⟩

end Dominators

end RefCount.Ir
