/-
What the depth-first order of a graph contains. It holds the entry and is
closed under the edges of the graph, as far as they lead to blocks; so a run
never leaves it.

# The argument

A visit leaves everything that it has come to see, and whatever is left has
had all that it leads to seen (`Extends`). The bound on the depth is no bound:
with each level of depth a block more has been seen, and blocks are seen only
once.
-/
import Mathlib
import RefCount.Ir.Flow

namespace RefCount.Ir.Func

open List

variable {f : Func} {s s' s'' : Visit} {b : BlockId}

theorem block_lt {block : Block} (h : f.block? b = some block) : b < f.blocks.size :=
  (Array.getElem?_eq_some_iff.1 h).1

/-- What a visit adds to what has been seen and left. -/
structure Extends (f : Func) (s s' : Visit) : Prop where
  seen : ∀ x ∈ s.seen, x ∈ s'.seen
  nodup : s.seen.Nodup → s'.seen.Nodup
  bound : (∀ x ∈ s.seen, x < f.blocks.size) → ∀ x ∈ s'.seen, x < f.blocks.size
  length : s.seen.length ≤ s'.seen.length
  done : ∀ x ∈ s'.seen, x ∈ s.seen ∨ x ∈ s'.left
  left : ∀ x ∈ s.left, x ∈ s'.left
  closed : ∀ x ∈ s'.left, x ∈ s.left ∨
    x ∈ s'.seen ∧ ∀ y ∈ f.successors x, y < f.blocks.size → y ∈ s'.seen

theorem Extends.refl : Extends f s s where
  seen _ hx := hx
  nodup h := h
  bound h := h
  length := le_rfl
  done _ hx := .inl hx
  left _ hx := hx
  closed _ hx := .inl hx

theorem Extends.trans (h : Extends f s s') (h' : Extends f s' s'') : Extends f s s'' where
  seen x hx := h'.seen x (h.seen x hx)
  nodup hs := h'.nodup (h.nodup hs)
  bound hs := h'.bound (h.bound hs)
  length := h.length.trans h'.length
  done x hx := by
    rcases h'.done x hx with hx | hx
    · exact (h.done x hx).imp id (h'.left x)
    · exact .inr hx
  left x hx := h'.left x (h.left x hx)
  closed x hx := by
    rcases h'.closed x hx with hx | hx
    · refine (h.closed x hx).imp id fun ⟨hseen, hsucc⟩ => ⟨h'.seen x hseen, fun y hy hlt => ?_⟩
      exact h'.seen y (hsucc y hy hlt)
    · exact .inr hx

/-- Blocks that have been seen, each once, are at most all blocks. -/
theorem length_seen_le (hnd : s.seen.Nodup) (hlt : ∀ x ∈ s.seen, x < f.blocks.size) :
    s.seen.length ≤ f.blocks.size := by
  have hsub : s.seen ⊆ List.range f.blocks.size :=
    fun x hx => mem_range.2 (hlt x hx)
  simpa using (subperm_of_subset hnd hsub).length_le

/-- Visiting blocks one after the other sees them all, if each visit does. -/
theorem foldl_visit {depth : Nat} {P : Visit → Prop} (hP : ∀ s s', P s → Extends f s s' → P s')
    (hvisit : ∀ s b, P s → Extends f s (f.visit depth s b) ∧
      (b < f.blocks.size → b ∈ (f.visit depth s b).seen)) :
    ∀ (bs : List BlockId) (s : Visit), P s → Extends f s (bs.foldl (f.visit depth) s) ∧
      ∀ b ∈ bs, b < f.blocks.size → b ∈ (bs.foldl (f.visit depth) s).seen := by
  intro bs
  induction bs with
  | nil => exact fun s _ => ⟨.refl, fun _ hb => nomatch hb⟩
  | cons c bs ih =>
    intro s hs
    obtain ⟨hgrow, hc⟩ := hvisit s c hs
    obtain ⟨hgrow', hbs⟩ := ih (f.visit depth s c) (hP s _ hs hgrow)
    refine ⟨hgrow.trans hgrow', fun b hb hlt => ?_⟩
    rcases mem_cons.1 hb with rfl | hb
    · exact hgrow'.seen b (hc hlt)
    · exact hbs b hb hlt

/-- A visit with enough depth sees its block and what it leads to. -/
theorem visit_extends : ∀ (depth : Nat) (s : Visit) (b : BlockId),
    s.seen.Nodup ∧ (∀ x ∈ s.seen, x < f.blocks.size) ∧ f.blocks.size < depth + s.seen.length →
    Extends f s (f.visit depth s b) ∧ (b < f.blocks.size → b ∈ (f.visit depth s b).seen) := by
  intro depth
  induction depth with
  | zero =>
    rintro s b ⟨hnd, hlt, hfuel⟩
    have := length_seen_le hnd hlt
    omega
  | succ depth ih =>
    rintro s b ⟨hnd, hlt, hfuel⟩
    unfold visit
    split
    · next hcond =>
      refine ⟨.refl, fun hb => ?_⟩
      simpa [Nat.not_le.2 hb] using hcond
    · next hcond =>
      simp only [Bool.or_eq_true, contains_eq_mem, decide_eq_true_eq, not_or, not_le] at hcond
      obtain ⟨hnew, hb⟩ := hcond
      have hstart : (b :: s.seen).Nodup ∧ (∀ x ∈ b :: s.seen, x < f.blocks.size) ∧
          f.blocks.size < depth + (b :: s.seen).length := by
        refine ⟨nodup_cons.2 ⟨hnew, hnd⟩, fun x hx => ?_, ?_⟩
        · rcases mem_cons.1 hx with rfl | hx
          · exact hb
          · exact hlt x hx
        · rw [length_cons]
          omega
      obtain ⟨hgrow, hsucc⟩ := @foldl_visit f depth
        (fun s => s.seen.Nodup ∧ (∀ x ∈ s.seen, x < f.blocks.size) ∧
          f.blocks.size < depth + s.seen.length)
        (fun s s' ⟨hnd, hlt, hfuel⟩ hg => ⟨hg.nodup hnd, hg.bound hlt, by
          have := hg.length
          omega⟩)
        ih (f.successors b) { s with seen := b :: s.seen } hstart
      have hseen : b ∈ ((f.successors b).foldl (f.visit depth)
          { s with seen := b :: s.seen }).seen := hgrow.seen b (.head _)
      refine ⟨⟨?_, ?_, ?_, ?_, ?_, ?_, ?_⟩, fun _ => hseen⟩
      · exact fun x hx => hgrow.seen x (mem_cons_of_mem b hx)
      · exact fun _ => hgrow.nodup hstart.1
      · exact fun _ => hgrow.bound hstart.2.1
      · exact (Nat.le_succ _).trans hgrow.length
      · intro x hx
        rcases hgrow.done x hx with hx | hx
        · rcases mem_cons.1 hx with rfl | hx
          · exact .inr (.head _)
          · exact .inl hx
        · exact .inr (mem_cons_of_mem b hx)
      · exact fun x hx => mem_cons_of_mem b (hgrow.left x hx)
      · intro x hx
        rcases mem_cons.1 hx with rfl | hx
        · exact .inr ⟨hseen, hsucc⟩
        · exact hgrow.closed x hx

-- ======== the order

/-- What the visit from the entry leads to. -/
theorem extends_reversePostorder (f : Func) :
    Extends f ⟨[], []⟩ (f.visit (f.blocks.size + 1) ⟨[], []⟩ f.entry) ∧ (f.entry < f.blocks.size →
        f.entry ∈ (f.visit (f.blocks.size + 1) ⟨[], []⟩ f.entry).seen) :=
  visit_extends _ _ _ ⟨nodup_nil, fun _ hx => absurd hx not_mem_nil, by simp⟩

theorem mem_postorder_iff_seen : b ∈ f.postorder ↔
    b ∈ (f.visit (f.blocks.size + 1) ⟨[], []⟩ f.entry).seen := by
  obtain ⟨hgrow, -⟩ := extends_reversePostorder f
  rw [postorder, mem_reverse, reversePostorder]
  constructor
  · intro hb
    rcases hgrow.closed b hb with hb | hb
    · cases hb
    · exact hb.1
  · intro hb
    rcases hgrow.done b hb with hb | hb
    · cases hb
    · exact hb

/-- The order holds blocks only. -/
theorem lt_of_mem_postorder (hb : b ∈ f.postorder) : b < f.blocks.size :=
  (extends_reversePostorder f).1.bound (fun _ hx => nomatch hx) b (mem_postorder_iff_seen.1 hb)

theorem entry_mem_postorder (h : f.entry < f.blocks.size) : f.entry ∈ f.postorder :=
  mem_postorder_iff_seen.2 ((extends_reversePostorder f).2 h)

/-- The order holds what its blocks lead to. -/
theorem successor_mem_postorder {t : BlockId} (hb : b ∈ f.postorder)
    (ht : t ∈ f.successors b) (hlt : t < f.blocks.size) : t ∈ f.postorder := by
  obtain ⟨hgrow, -⟩ := extends_reversePostorder f
  rw [postorder, mem_reverse, reversePostorder] at hb
  rcases hgrow.closed b hb with hb | hb
  · cases hb
  · exact mem_postorder_iff_seen.2 (hb.2 t ht hlt)

end RefCount.Ir.Func
