/-
The places of blocks in reverse postorder. The order starts with the entry and
holds each block that can be reached once; every block but the entry comes
behind one that leads to it.

# The argument

A visit puts the blocks that it leaves before those that were left already,
and its own block before them all (`Threads`). So a block that is left is one
that the visit was asked for, or a block that leads to it is left later, which
is further in front.
-/
import Mathlib
import RefCount.Proofs.Ir.Flow

namespace RefCount

section Arrays

variable {α : Type} {xs : Array α} {i : Nat} {x d : α}

theorem getD_setIfInBounds (hi : i < xs.size) (j : Nat) :
    (xs.setIfInBounds i x).getD j d = if j = i then x else xs.getD j d := by
  rw [Array.getD_eq_getD_getElem?, Array.getD_eq_getD_getElem?, Array.getElem?_setIfInBounds]
  by_cases hj : j = i
  · subst hj
    simp [hi]
  · simp [hj, Ne.symm hj]

theorem getD_of_replicate (n : Nat) (x : α) (i : Nat) : (Array.replicate n x).getD i x = x := by
  rw [Array.getD_eq_getD_getElem?, Array.getElem?_replicate]
  split <;> rfl

end Arrays

/-- Nothing is left twice when repetitions are dropped. -/
theorem nodup_eraseDups {α : Type} [BEq α] [LawfulBEq α] :
    ∀ {n : Nat} (xs : List α), xs.length ≤ n → xs.eraseDups.Nodup := by
  intro n
  induction n with
  | zero =>
    intro xs hxs
    rw [List.length_eq_zero_iff.1 (Nat.le_zero.1 hxs)]
    exact List.nodup_nil
  | succ n ih =>
    intro xs hxs
    cases xs with
    | nil => exact List.nodup_nil
    | cons x xs =>
      rw [List.eraseDups_cons, List.nodup_cons]
      refine ⟨?_, ih _ ((List.length_filter_le _ _).trans (Nat.le_of_succ_le_succ hxs))⟩
      simp

end RefCount

namespace RefCount.Ir.Func

open List Array

/-- Blocks carry their own numbers. -/
def Keyed (f : Func) : Prop := ∀ i b, f.block? i = some b → b.id = i

/-- Edges lead to blocks. -/
def Closed (f : Func) : Prop := ∀ b, ∀ t ∈ f.successors b, t < f.blocks.size

variable {f : Func} {s s' s'' : Visit} {b c p : BlockId}

-- ======== visits

/-- The blocks that a visit of some blocks leaves, and how they come to be
left. -/
structure Threads (f : Func) (roots : List BlockId) (s s' : Visit) (new : List BlockId) :
    Prop where
  left : s'.left = new ++ s.left
  keeps : ∀ x ∈ s.seen, x ∈ s'.seen
  seen : ∀ x ∈ new, x ∈ s'.seen
  unseen : ∀ x ∈ new, x ∉ s.seen
  nodup : new.Nodup
  led : ∀ pre x post, new = pre ++ x :: post → x ∈ roots ∨ ∃ p ∈ pre, x ∈ f.successors p

theorem Threads.refl (roots : List BlockId) : Threads f roots s s [] where
  left := rfl
  keeps _ hx := hx
  seen _ hx := nomatch hx
  unseen _ hx := nomatch hx
  nodup := nodup_nil
  led pre x post h := by simp at h

/-- One visit after the other. -/
theorem Threads.trans {roots : List BlockId} {new new' : List BlockId}
    (h : Threads f roots s s' new) (h' : Threads f roots s' s'' new') :
    Threads f roots s s'' (new' ++ new) where
  left := by rw [h'.left, h.left, List.append_assoc]
  keeps x hx := h'.keeps x (h.keeps x hx)
  seen x hx := by
    rcases mem_append.1 hx with hx | hx
    · exact h'.seen x hx
    · exact h'.keeps x (h.seen x hx)
  unseen x hx hs := by
    rcases mem_append.1 hx with hx | hx
    · exact h'.unseen x hx (h.keeps x hs)
    · exact h.unseen x hx hs
  nodup := by
    refine nodup_append.2 ⟨h'.nodup, h.nodup, fun x hx y hy hxy => ?_⟩
    exact h'.unseen x hx (hxy ▸ h.seen y hy)
  led pre x post hsplit := by
    rcases append_eq_append_iff.1 hsplit with ⟨mid, rfl, hnew⟩ | ⟨mid, hnew', hmid⟩
    · rcases h.led mid x post hnew with hx | ⟨p, hp, hx⟩
      · exact .inl hx
      · exact .inr ⟨p, mem_append_right _ hp, hx⟩
    · rcases cons_eq_append_iff.1 hmid with ⟨rfl, hnew⟩ | ⟨rest, rfl, -⟩
      · exact (h.led [] x post hnew).imp id fun ⟨p, hp, _⟩ => nomatch hp
      · exact h'.led pre x rest hnew'

theorem Threads.mono {roots roots' : List BlockId} {new : List BlockId}
    (h : Threads f roots s s' new) (hsub : roots ⊆ roots') : Threads f roots' s s' new :=
  { h with led := fun pre x post hsplit => (h.led pre x post hsplit).imp (@hsub x) id }

/-- Visiting blocks one after the other. -/
theorem foldl_visit_threads {visit : Visit → BlockId → Visit}
    (hvisit : ∀ s b, ∃ new, Threads f [b] s (visit s b) new) :
    ∀ (bs : List BlockId) (s : Visit), ∃ new, Threads f bs s (bs.foldl visit s) new := by
  intro bs
  induction bs with
  | nil => exact fun s => ⟨[], .refl _⟩
  | cons b bs ih =>
    intro s
    obtain ⟨new, h⟩ := hvisit s b
    obtain ⟨new', h'⟩ := ih (visit s b)
    exact ⟨new' ++ new, (h.mono (by simp)).trans (h'.mono (subset_cons_self b bs))⟩

/-- A visit leaves its block in front of what it leads to. -/
theorem visit_threads : ∀ (depth : Nat) (s : Visit) (b : BlockId),
    ∃ new, Threads f [b] s (f.visit depth s b) new := by
  intro depth
  induction depth with
  | zero => exact fun s b => ⟨[], .refl _⟩
  | succ depth ih =>
    intro s b
    unfold visit
    split
    · exact ⟨[], .refl _⟩
    · next hcond =>
      simp only [Bool.or_eq_true, List.contains_eq_mem, decide_eq_true_eq, not_or, not_le] at hcond
      obtain ⟨new, h⟩ := foldl_visit_threads ih (f.successors b) { s with seen := b :: s.seen }
      have hseen := h.keeps b (.head _)
      have hb : b ∉ new := fun hm => h.unseen b hm (.head _)
      refine ⟨b :: new, ?_, fun x hx => h.keeps x (mem_cons_of_mem b hx), fun x hx => ?_,
        fun x hx hs => ?_, nodup_cons.2 ⟨hb, h.nodup⟩, fun pre x post hsplit => ?_⟩
      · rw [cons_append, ← h.left]
      · rcases mem_cons.1 hx with rfl | hx
        · exact hseen
        · exact h.seen x hx
      · rcases List.mem_cons.1 hx with rfl | hx
        · exact hcond.1 hs
        · exact h.unseen x hx (mem_cons_of_mem b hs)
      · rcases cons_eq_append_iff.1 hsplit with ⟨rfl, hx⟩ | ⟨pre', rfl, hnew⟩
        · exact .inl (mem_singleton.2 (cons.inj hx).1)
        · rcases h.led pre' x post hnew with hx | ⟨p, hp, hx⟩
          · exact .inr ⟨b, .head _, hx⟩
          · exact .inr ⟨p, mem_cons_of_mem b hp, hx⟩

-- ======== the order

/-- What the order is like. -/
theorem threads_reversePostorder (f : Func) :
    Threads f [f.entry] ⟨[], []⟩ (f.visit (f.blocks.size + 1) ⟨[], []⟩ f.entry)
      f.reversePostorder := by
  obtain ⟨new, h⟩ := @visit_threads f (f.blocks.size + 1) ⟨[], []⟩ f.entry
  have hnew : f.reversePostorder = new := by
    rw [reversePostorder, h.left, append_nil]
  rwa [hnew]

theorem nodup_reversePostorder (f : Func) : f.reversePostorder.Nodup :=
  (threads_reversePostorder f).nodup

theorem mem_reversePostorder : b ∈ f.reversePostorder ↔ b ∈ f.postorder := by
  rw [postorder, List.mem_reverse]

/-- The order starts with the entry. -/
theorem reversePostorder_eq_cons (h : f.entry < f.blocks.size) :
    f.reversePostorder = f.entry :: f.reversePostorder.drop 1 := by
  have hmem := mem_reversePostorder.2 (entry_mem_postorder h)
  cases horder : f.reversePostorder with
  | nil =>
    rw [horder] at hmem
    cases hmem
  | cons b rest =>
    rcases (threads_reversePostorder f).led [] b rest horder with hb | ⟨p, hp, -⟩
    · rw [mem_singleton.1 hb]
      rfl
    · cases hp

/-- The place of a block in reverse postorder. -/
def place (f : Func) (b : BlockId) : Nat := f.reversePostorder.idxOf b

theorem getD_placesIn {order : List BlockId} (hnd : order.Nodup)
    (hlt : ∀ b ∈ order, b < f.blocks.size) (hb : b ∈ order) :
    (f.placesIn order).getD b 0 = order.idxOf b := by
  have hfold : ∀ (rest : List BlockId) (k : Nat) (places : Array Nat),
      rest.Nodup → (∀ b ∈ rest, b < places.size) →
      ∀ b, ((rest.zipIdx k).foldl (fun places p => places.setIfInBounds p.1 p.2) places).getD b 0 =
        if b ∈ rest then rest.idxOf b + k else places.getD b 0 := by
    intro rest
    induction rest with
    | nil => intro k places _ _ b; simp
    | cons c rest ih =>
      intro k places hnd hlt b
      obtain ⟨hc, hnd⟩ := nodup_cons.1 hnd
      rw [zipIdx_cons, foldl_cons, ih (k + 1) _ hnd fun b hb => by
        simpa using hlt b (mem_cons_of_mem c hb), getD_setIfInBounds (hlt c (.head _))]
      by_cases hbc : b = c
      · subst hbc
        rw [if_neg hc, if_pos rfl, if_pos mem_cons_self, idxOf_cons_self, zero_add]
      · have hmem : b ∈ c :: rest ↔ b ∈ rest := by simp [hbc]
        simp only [hmem]
        split
        · rw [idxOf_cons_ne rest (Ne.symm hbc)]
          omega
        · rfl
  have hplace := hfold order 0 (Array.replicate f.blocks.size 0) hnd (by simpa using hlt) b
  rw [if_pos hb, add_zero] at hplace
  exact hplace

theorem length_reversePostorder_le (f : Func) : f.reversePostorder.length ≤ f.blocks.size := by
  have hsub : f.reversePostorder ⊆ List.range f.blocks.size :=
    fun x hx => mem_range.2 (lt_of_mem_postorder (mem_reversePostorder.1 hx))
  simpa using (subperm_of_subset (nodup_reversePostorder f) hsub).length_le

/-- The place of a block is below the number of blocks. -/
theorem place_lt (hb : b ∈ f.reversePostorder) : f.place b < f.blocks.size :=
  (idxOf_lt_length_of_mem hb).trans_le (length_reversePostorder_le f)

theorem place_entry (h : f.entry < f.blocks.size) : f.place f.entry = 0 := by
  rw [place, reversePostorder_eq_cons h, idxOf_cons_self]

/-- Blocks with the same place are the same. -/
theorem place_inj (hb : b ∈ f.reversePostorder) (h : f.place b = f.place c) : b = c :=
  (idxOf_inj hb).1 h

/-- A block behind others in the order. -/
theorem place_of_split {pre post : List BlockId} (h : f.reversePostorder = pre ++ b :: post) :
    f.place b = pre.length := by
  have hnd := nodup_reversePostorder f
  rw [h] at hnd
  have hb : b ∉ pre := fun hm => (nodup_append.1 hnd).2.2 b hm b (.head _) rfl
  rw [place, h, idxOf_append_of_notMem hb, idxOf_cons_self, add_zero]

/-- The blocks with earlier places are those in front. -/
theorem mem_of_place_lt {pre post : List BlockId} (h : f.reversePostorder = pre ++ b :: post)
    (hlt : f.place c < f.place b) : c ∈ pre := by
  rw [place_of_split h] at hlt
  by_contra hm
  rw [place, h, idxOf_append_of_notMem hm] at hlt
  omega

/-- Every block but the entry comes behind one that leads to it. -/
theorem exists_earlier (hb : b ∈ f.reversePostorder) (hne : b ≠ f.entry) :
    ∃ p ∈ f.reversePostorder, b ∈ f.successors p ∧ f.place p < f.place b := by
  obtain ⟨pre, post, hsplit⟩ := append_of_mem hb
  rcases (threads_reversePostorder f).led pre b post hsplit with hroot | ⟨p, hp, hlead⟩
  · exact absurd (mem_singleton.1 hroot) hne
  · have hmem : p ∈ f.reversePostorder := hsplit ▸ mem_append_left _ hp
    refine ⟨p, hmem, hlead, ?_⟩
    rw [place_of_split hsplit, place, hsplit, idxOf_append_of_mem hp]
    exact idxOf_lt_length_of_mem hp

-- ======== reachability

/-- Whether a way leads from the entry to a block. -/
inductive Reachable (f : Func) : BlockId → Prop
  | entry : Reachable f f.entry
  | edge {b t : BlockId} (h : Reachable f b) (ht : t ∈ f.successors b) : Reachable f t

theorem Reachable.lt (h : f.Reachable b) (hentry : f.entry < f.blocks.size) (hf : f.Closed) :
    b < f.blocks.size := by
  cases h with
  | entry => exact hentry
  | edge _ ht => exact hf _ _ ht

theorem exists_of_successor {t : BlockId} (ht : t ∈ f.successors b) :
    ∃ block, f.block? b = some block ∧ t ∈ block.successors := by
  rw [successors] at ht
  cases hb : f.block? b with
  | none =>
    rw [hb] at ht
    cases ht
  | some block =>
    rw [hb] at ht
    exact ⟨block, rfl, ht⟩

/-- Only a block leads anywhere. -/
theorem lt_of_mem_successors {t : BlockId} (ht : t ∈ f.successors b) : b < f.blocks.size := by
  obtain ⟨block, hb, -⟩ := exists_of_successor ht
  exact block_lt hb

/-- The order holds the blocks that can be reached. An edge may lead to a block
that is not there. -/
theorem mem_reversePostorder_iff (hentry : f.entry < f.blocks.size) :
    b ∈ f.reversePostorder ↔ f.Reachable b ∧ b < f.blocks.size := by
  constructor
  · -- by induction on the place: a block that leads there comes earlier
    intro hb
    refine ⟨?_, lt_of_mem_postorder (mem_reversePostorder.1 hb)⟩
    generalize hk : f.place b = k
    induction k using Nat.strong_induction_on generalizing b with
    | _ k ih =>
      by_cases hne : b = f.entry
      · rw [hne]
        exact .entry
      · obtain ⟨p, hp, hlead, hlt⟩ := exists_earlier hb hne
        exact .edge (ih _ (hk ▸ hlt) hp rfl) hlead
  · rintro ⟨h, hb⟩
    induction h with
    | entry => exact mem_reversePostorder.2 (entry_mem_postorder hentry)
    | edge _ ht ih =>
      exact mem_reversePostorder.2
        (successor_mem_postorder (mem_reversePostorder.1 (ih (lt_of_mem_successors ht))) ht hb)

-- ======== predecessors

/-- A block is listed once among the successors of another. -/
theorem nodup_successors (f : Func) (b : BlockId) : (f.successors b).Nodup := by
  unfold successors
  cases f.block? b with
  | none => exact nodup_nil
  | some block =>
    unfold Option.map Option.getD Block.successors
    cases block.term with
    | none => exact nodup_nil
    | some t => exact nodup_eraseDups _ le_rfl

/-- The blocks that lead to a block, by their numbers. -/
theorem mem_preds_iff (hid : f.Keyed) : p ∈ f.preds b ↔ b ∈ f.successors p := by
  have hterm : ∀ block : Block, block.leadsTo b = true ↔ b ∈ block.successors := by
    intro block
    unfold Block.leadsTo Block.successors
    cases block.term with
    | none => simp
    | some t => simp [Term.successors]
  unfold preds successors
  rw [List.mem_map]
  constructor
  · rintro ⟨block, hblock, rfl⟩
    obtain ⟨hmem, hlead⟩ := mem_filter.1 hblock
    obtain ⟨i, hi⟩ := mem_iff_getElem?.1 (mem_toList_iff.1 hmem)
    rw [hid i block hi, block?, hi]
    exact (hterm block).1 hlead
  · intro hb
    cases hp : f.block? p with
    | none =>
      rw [hp] at hb
      cases hb
    | some block =>
      rw [hp] at hb
      exact ⟨block, mem_filter.2 ⟨mem_toList_iff.2 (mem_of_getElem? hp),
        (hterm block).2 hb⟩, hid p block hp⟩

end RefCount.Ir.Func
