/-
Replacing a block by several. One block of a function is changed and others are
put behind the blocks that are there; the edges that leave these blocks are
edges of the block before, or lead to the new ones (`Replaces`). Such a function
is well-formed again if no variable has two definitions.

Some variables may be given up. Uses are supported again if no other block
reads these, and all others that the block defined are handed on by the blocks
from which edges leave: at the end of the changed block everything is there
that was at its start, so this may be taken as there in every new block
(`Replaces.valid`).
-/
import Mathlib
import RefCount.Proofs.Ir.Check

namespace RefCount.Ir

open List Array Func

/-- One block of a function is changed, and new blocks are behind the old. -/
structure Replaces (f g : Func) (b : BlockId) (block block' : Block) (new : List Block) :
    Prop where
  params : g.params = f.params
  entry : g.entry = f.entry
  types : ∃ more : List TypeId, g.types = f.types ++ more.toArray
  here : f.block? b = some block
  blocks : g.blocks.toList = f.blocks.toList.set b block' ++ new
  id : block'.id = block.id
  blockParams : block'.params = block.params
  ids : ∀ i nb, new[i]? = some nb → nb.id = f.blocks.size + i
  term : ∀ nb ∈ block' :: new, nb.term.isSome
  edge : ∀ nb ∈ block' :: new, ∀ t ∈ nb.successors,
    (t ∈ block.successors ∧ ∀ target, EdgeFits block target → EdgeFits nb target) ∨
    ∃ i target, t = f.blocks.size + i ∧ new[i]? = some target ∧ EdgeFits nb target
  nodup : (block'.defs ++ new.flatMap Block.defs).Nodup
  bound : ∀ v ∈ block'.defs ++ new.flatMap Block.defs,
    v ∈ block.defs ∨ f.types.size ≤ v ∧ v < g.types.size

namespace Replaces

variable {f g : Func} {b i t : BlockId} {block block' x : Block} {new : List Block} {v : Var}

section Blocks

variable (h : Replaces f g b block block' new)
include h

theorem lt : b < f.blocks.size := Func.block_lt h.here

/-- The blocks of the new function. -/
theorem block?_eq (i : BlockId) : g.block? i =
    if i < f.blocks.size then (if i = b then some block' else f.block? i)
    else new[i - f.blocks.size]? := by
  unfold block?
  rw [← Array.getElem?_toList, h.blocks, List.getElem?_append, List.length_set, length_toList]
  split
  · rw [List.getElem?_set, Array.length_toList, Array.getElem?_toList]
    by_cases hi : i = b
    · rw [if_pos hi, if_pos hi.symm, if_pos h.lt]
    · rw [if_neg hi, if_neg (Ne.symm hi)]
  · rfl

theorem block?_here : g.block? b = some block' := by
  rw [h.block?_eq, if_pos h.lt, if_pos rfl]

theorem block?_old {c : BlockId} (hne : c ≠ b) (hc : f.block? c = some x) :
    g.block? c = some x := by
  rw [h.block?_eq, if_pos (Func.block_lt hc), if_neg hne, hc]

theorem block?_new (hi : new[i]? = some x) : g.block? (f.blocks.size + i) = some x := by
  rw [h.block?_eq, if_neg (not_lt.2 (Nat.le_add_right _ _)), Nat.add_sub_cancel_left, hi]

/-- A block is the changed one, an old one or a new one. -/
theorem block_cases (hx : g.block? i = some x) :
    (i = b ∧ x = block') ∨ (i ≠ b ∧ f.block? i = some x) ∨
      ∃ j, i = f.blocks.size + j ∧ new[j]? = some x := by
  rw [h.block?_eq] at hx
  split at hx
  · split at hx
    · rename_i hi
      exact .inl ⟨hi, (Option.some.inj hx).symm⟩
    · rename_i hi
      exact .inr (.inl ⟨hi, hx⟩)
  · rename_i hi
    exact .inr (.inr ⟨i - f.blocks.size, (Nat.add_sub_of_le (not_lt.1 hi)).symm, hx⟩)

/-- A block is an old one or one of the new. -/
theorem mem_cases (hx : x ∈ g.blocks) :
    (∃ c, c ≠ b ∧ f.block? c = some x) ∨ x ∈ block' :: new := by
  obtain ⟨i, hi⟩ := mem_iff_getElem?.1 hx
  rcases h.block_cases hi with ⟨-, rfl⟩ | ⟨hne, hold⟩ | ⟨j, -, hj⟩
  · exact .inr (.head _)
  · exact .inl ⟨i, hne, hold⟩
  · exact .inr (.tail _ (mem_of_getElem? hj))

/-- An edge of the blocks that replace one leads where the block led, or to a
new block. -/
theorem edge_old (hx : x ∈ block' :: new) (ht : t ∈ x.successors) (hlt : t < f.blocks.size) :
    t ∈ f.successors b ∧ ∀ target, EdgeFits block target → EdgeFits x target := by
  rcases h.edge x hx t ht with ⟨ht, hfits⟩ | ⟨i, -, rfl, -⟩
  · exact ⟨successors_eq h.here ▸ ht, hfits⟩
  · exact absurd hlt (not_lt.2 (Nat.le_add_right _ _))

-- ======== well-formed

/-- What the blocks of the function hold, up to order. -/
theorem flatMap_perm {α : Type} (k : Block → List α) : ∃ rest : List α,
    (f.blocks.toList.flatMap k).Perm (rest ++ k block) ∧
      (g.blocks.toList.flatMap k).Perm (rest ++ (k block' ++ new.flatMap k)) := by
  obtain ⟨before, behind, hsplit, hlength⟩ : ∃ before behind,
      f.blocks.toList = before ++ block :: behind ∧ before.length = b := by
    have hb : f.blocks.toList[b]? = some block := Array.getElem?_toList.trans h.here
    obtain ⟨hlt, hget⟩ := List.getElem?_eq_some_iff.1 hb
    refine ⟨f.blocks.toList.take b, f.blocks.toList.drop (b + 1), ?_, ?_⟩
    · rw [← hget, getElem_cons_drop, take_append_drop]
    · rw [length_take, min_eq_left hlt.le]
  refine ⟨before.flatMap k ++ behind.flatMap k, ?_, ?_⟩
  · rw [hsplit, List.flatMap_append, List.flatMap_cons, List.append_assoc]
    exact List.Perm.append_left _ perm_append_comm
  · rw [h.blocks, hsplit, ← hlength, set_append_right _ _ le_rfl, Nat.sub_self,
      List.set_cons_zero, List.flatMap_append, List.flatMap_append, List.flatMap_cons]
    simp only [List.append_assoc]
    refine List.Perm.append_left _ ?_
    rw [← List.append_assoc, ← List.append_assoc]
    exact perm_append_comm.append_right _

/-- The definitions of the function, up to order. -/
theorem defs_perm : ∃ rest : List Var, f.defs.Perm (rest ++ block.defs) ∧
    g.defs.Perm (rest ++ (block'.defs ++ new.flatMap Block.defs)) := by
  obtain ⟨rest, hold, hnew⟩ := h.flatMap_perm Block.defs
  refine ⟨f.params.map (·.var) ++ rest, ?_, ?_⟩
  · rw [defs, List.append_assoc]
    exact hold.append_left _
  · rw [defs, h.params, List.append_assoc]
    exact hnew.append_left _

theorem size_le : f.types.size ≤ g.types.size := by
  obtain ⟨more, hmore⟩ := h.types
  rw [hmore, size_append]
  exact Nat.le_add_right _ _

/-- What is defined is a definition of another block, or of one of those that
replace one. -/
theorem mem_defs_iff (hf : WellFormed f) : v ∈ g.defs ↔
    (v ∈ f.defs ∧ v ∉ block.defs) ∨ ∃ x ∈ block' :: new, v ∈ x.defs := by
  obtain ⟨rest, hfdefs, hgdefs⟩ := h.defs_perm
  have hnd := (hfdefs.nodup_iff).1 hf.nodup
  have hparts : v ∈ block'.defs ++ new.flatMap Block.defs ↔ ∃ x ∈ block' :: new, v ∈ x.defs := by
    rw [← List.flatMap_cons, List.mem_flatMap]
  rw [hgdefs.mem_iff, hfdefs.mem_iff, List.mem_append, hparts, List.mem_append]
  refine or_congr_left ⟨fun hv => ⟨.inl hv, fun hb => ?_⟩, fun hv => hv.1.resolve_right hv.2⟩
  exact (nodup_append.1 hnd).2.2 v hv v hb rfl

/-- The new function is well-formed. -/
theorem wellFormed (hf : WellFormed f) : WellFormed g := by
  have hid : ∀ i x, g.block? i = some x → x.id = i := by
    intro i x hx
    rcases h.block_cases hx with ⟨rfl, rfl⟩ | ⟨-, hold⟩ | ⟨j, rfl, hj⟩
    · rw [h.id, hf.id _ _ h.here]
    · exact hf.id i x hold
    · exact h.ids j x hj
  have hmember : ∀ {i x}, g.block? i = some x → (i = b ∨ ∃ j, i = f.blocks.size + j) →
      x ∈ block' :: new := by
    intro i x hx hi
    rcases h.block_cases hx with ⟨-, rfl⟩ | ⟨hne, hold⟩ | ⟨j, -, hnew⟩
    · exact .head _
    · rcases hi with rfl | ⟨j, rfl⟩
      · exact absurd rfl hne
      · exact absurd (Func.block_lt hold) (not_lt.2 (Nat.le_add_right _ _))
    · exact .tail _ (mem_of_getElem? hnew)
  refine ⟨?_, ?_, hid, ?_, ?_, ?_, ?_⟩
  · rw [h.entry]
    obtain ⟨e, he⟩ := hf.entry
    by_cases hb : f.entry = b
    · exact ⟨block', hb ▸ h.block?_here⟩
    · exact ⟨e, h.block?_old hb he⟩
  · rw [eq_nil_iff_forall_not_mem]
    intro p hp
    rw [mem_preds_iff hid, h.entry] at hp
    obtain ⟨x, hx, hp⟩ := exists_of_successor hp
    by_cases hi : p = b ∨ ∃ j, p = f.blocks.size + j
    · exact hf.entry_not_successor (h.edge_old (hmember hx hi) hp hf.numbered.entry).1
    · rcases h.block_cases hx with ⟨rfl, -⟩ | ⟨-, hold⟩ | ⟨j, rfl, -⟩
      · exact hi (.inl rfl)
      · exact hf.entry_not_successor (successors_eq hold ▸ hp)
      · exact hi (.inr ⟨j, rfl⟩)
  · obtain ⟨rest, hfdefs, hgdefs⟩ := h.defs_perm
    have hnd := (hfdefs.nodup_iff).1 hf.nodup
    rw [hgdefs.nodup_iff]
    refine nodup_append.2 ⟨(nodup_append.1 hnd).1, h.nodup, fun a ha c hc hac => ?_⟩
    subst hac
    rcases h.bound a hc with hb | ⟨hb, -⟩
    · exact (nodup_append.1 hnd).2.2 a ha a hb rfl
    · exact absurd (hf.bound a (hfdefs.mem_iff.2 (mem_append_left _ ha))) (not_lt.2 hb)
  · intro v hv
    rcases (h.mem_defs_iff hf).1 hv with ⟨hv, -⟩ | hv
    · exact (hf.bound v hv).trans_le h.size_le
    · have hv' : v ∈ block'.defs ++ new.flatMap Block.defs := by
        rwa [← List.flatMap_cons, List.mem_flatMap]
      rcases h.bound v hv' with hb | ⟨-, hb⟩
      · exact (hf.bound v (mem_defs_of_block h.here hb)).trans_le h.size_le
      · exact hb
  · intro x hx
    rcases h.mem_cases hx with ⟨c, -, hc⟩ | hx
    · exact hf.term x (mem_of_getElem? hc)
    · exact h.term x hx
  · -- an edge to an old block fits, since the block takes the same as before
    have holdFits : ∀ {x t}, t < f.blocks.size →
        (∃ target, f.block? t = some target ∧ EdgeFits x target) →
        ∃ target, g.block? t = some target ∧ EdgeFits x target := by
      rintro x t hlt ⟨target, htarget, hfits⟩
      by_cases hb : t = b
      · subst hb
        rw [h.here] at htarget
        cases htarget
        refine ⟨block', h.block?_here, ?_⟩
        rw [EdgeFits, h.blockParams]
        exact hfits
      · exact ⟨target, h.block?_old hb htarget, hfits⟩
    intro x hx t ht
    obtain ⟨i, hi⟩ := mem_iff_getElem?.1 hx
    by_cases hpart : i = b ∨ ∃ j, i = f.blocks.size + j
    · rcases h.edge x (hmember hi hpart) t ht with ⟨ht, hfits⟩ | ⟨j, target, rfl, hj, hfits⟩
      · obtain ⟨target, htarget, hfits'⟩ := hf.edge block (mem_of_getElem? h.here) t ht
        exact holdFits (Func.block_lt htarget) ⟨target, htarget, hfits target hfits'⟩
      · exact ⟨target, h.block?_new hj, hfits⟩
    · rcases h.block_cases hi with ⟨rfl, -⟩ | ⟨-, hold⟩ | ⟨j, rfl, -⟩
      · exact absurd (.inl rfl) hpart
      · obtain ⟨target, htarget, hfits⟩ := hf.edge x (mem_of_getElem? hold) t ht
        exact holdFits (Func.block_lt htarget) ⟨target, htarget, hfits⟩
      · exact absurd (.inr ⟨j, rfl⟩) hpart

-- ======== uses

variable (gone : Var → Prop)
  (hothers : ∀ c x, c ≠ b → f.block? c = some x → ∀ v ∈ x.reads, ¬gone v)
  (hhanded : ∀ x ∈ block' :: new, ∀ t ∈ x.successors, t < f.blocks.size →
    ∀ v ∈ block.defs, ¬gone v → v ∈ block'.defs ∨ v ∈ x.defs)
  (hhere : f.Reachable b → Supported block' fun v => ¬f.Misses v b ∧ ¬gone v)
  (hnew : f.Reachable b → ∀ x ∈ new,
    Supported x fun v => (¬f.Misses v b ∧ ¬gone v) ∨ v ∈ block'.defs)
include hothers hhanded hhere hnew

/-- Uses are supported, with some variables given up, if no other block reads
these and the others are handed on. -/
theorem allSupported (hf : WellFormed f) (hsupported : f.AllSupported) : g.AllSupported := by
  have hclaims := claims_supplied f
  let R (i : BlockId) : Prop :=
    if i < f.blocks.size then f.Reachable i else f.Reachable b
  let A (i : BlockId) (v : Var) : Prop :=
    if i < f.blocks.size then ¬f.Misses v i ∧ ¬gone v
    else (¬f.Misses v b ∧ ¬gone v) ∨ v ∈ block'.defs
  have hRold : ∀ {i}, i < f.blocks.size → (R i ↔ f.Reachable i) := fun hi => by
    rw [show R _ = _ from if_pos hi]
  have hRnew : ∀ {j}, R (f.blocks.size + j) ↔ f.Reachable b := by
    intro j
    rw [show R _ = _ from if_neg (not_lt.2 (Nat.le_add_right _ _))]
  have hAold : ∀ {i}, i < f.blocks.size → A i = fun v => ¬f.Misses v i ∧ ¬gone v :=
    fun hi => funext fun v => if_pos hi
  have hAnew : ∀ {j}, A (f.blocks.size + j) = fun v =>
      (¬f.Misses v b ∧ ¬gone v) ∨ v ∈ block'.defs :=
    fun {j} => funext fun v => if_neg (not_lt.2 (Nat.le_add_right _ j))
  -- which variables the blocks that replace one hand on
  have hleave : ∀ {x t v}, f.Reachable b → x ∈ block' :: new → t ∈ x.successors → A t v →
      (¬f.Misses v b ∧ ¬gone v) ∨ v ∈ block'.defs ∨ v ∈ x.defs := by
    intro x t v hb hx ht hA
    by_cases hlt : t < f.blocks.size
    · rw [hAold hlt] at hA
      have hsucc := (h.edge_old hx ht hlt).1
      rw [successors_eq h.here] at hsucc
      rcases hclaims.edge b block t v hb h.here hsucc hA.1 with hv | hv
      · exact .inl ⟨hv, hA.2⟩
      · exact .inr (hhanded x hx t ht hlt v hv hA.2)
    · obtain ⟨j, rfl⟩ := Nat.exists_eq_add_of_le (not_lt.1 hlt)
      rw [hAnew] at hA
      exact hA.imp_right .inl
  refine supported_of_claims (R := R) (A := A) ⟨?_, ?_, ?_, ?_⟩ ?_
  · rw [h.entry, hRold hf.numbered.entry]
    exact .entry
  · intro i x t hi hx ht
    have hstep : ∀ {i}, f.Reachable i → t ∈ f.successors i → R t := fun hi ht =>
      (hRold (hf.lt_of_successor ht)).2 (.edge hi ht)
    have hpart : f.Reachable b → x ∈ block' :: new → R t := by
      intro hb hmem
      by_cases hlt : t < f.blocks.size
      · exact hstep hb (h.edge_old hmem ht hlt).1
      · obtain ⟨j, rfl⟩ := Nat.exists_eq_add_of_le (not_lt.1 hlt)
        exact hRnew.2 hb
    rcases h.block_cases hx with ⟨rfl, rfl⟩ | ⟨-, hold⟩ | ⟨j, rfl, hj⟩
    · exact hpart ((hRold h.lt).1 hi) (.head _)
    · exact hstep ((hRold (Func.block_lt hold)).1 hi) (successors_eq hold ▸ ht)
    · exact hpart (hRnew.1 hi) (.tail _ (mem_of_getElem? hj))
  · intro v hv
    rw [h.entry, hAold hf.numbered.entry] at hv
    rw [h.params]
    exact hclaims.start v hv.1
  · intro i x t v hi hx ht hA
    rcases h.block_cases hx with ⟨rfl, rfl⟩ | ⟨-, hold⟩ | ⟨j, rfl, hj⟩
    · rw [hAold h.lt]
      exact (hleave ((hRold h.lt).1 hi) (.head _) ht hA).imp_right or_self_iff.1
    · have hlt := Func.block_lt hold
      have htlt : t < f.blocks.size := hf.lt_of_successor (successors_eq hold ▸ ht)
      rw [hAold htlt] at hA
      rw [hAold hlt]
      exact (hclaims.edge i x t v ((hRold hlt).1 hi) hold ht hA.1).imp_left fun hv => ⟨hv, hA.2⟩
    · rw [hAnew, or_assoc]
      exact hleave (hRnew.1 hi) (.tail _ (mem_of_getElem? hj)) ht hA
  · intro i x hi hx
    rcases h.block_cases hx with ⟨rfl, rfl⟩ | ⟨hne, hold⟩ | ⟨j, rfl, hj⟩
    · rw [hAold h.lt]
      exact hhere ((hRold h.lt).1 hi)
    · have hlt := Func.block_lt hold
      rw [hAold hlt]
      refine (hsupported i x ((hRold hlt).1 hi) hold).mono_on fun v hv => Or.imp_left fun hm => ?_
      exact ⟨hm, hothers i x hne hold v hv⟩
    · rw [hAnew]
      exact hnew (hRnew.1 hi) x (mem_of_getElem? hj)

/-- The function is valid if the blocks that replace one are. -/
theorem valid {stage : Stage} (hf : Valid stage f)
    (hstaged : ∀ x ∈ block' :: new, ∀ y ∈ x.code, checkStage stage x.id y = .ok ())
    (hkept : ∀ v ∈ block.defs, ¬gone v → ∃ x ∈ block' :: new, v ∈ x.defs)
    (hreads : ∀ x ∈ block' :: new, ∀ v ∈ x.reads,
      (v ∈ f.defs ∧ ¬gone v) ∨ ∃ y ∈ block' :: new, v ∈ y.defs) : Valid stage g := by
  have hdefs : ∀ v ∈ f.defs, ¬gone v → v ∈ g.defs := by
    intro v hv hgone
    rw [h.mem_defs_iff hf.toWellFormed]
    by_cases hb : v ∈ block.defs
    · exact .inr (hkept v hb hgone)
    · exact .inl ⟨hv, hb⟩
  refine ⟨h.wellFormed hf.toWellFormed, fun x hx y hy => ?_, fun x hx v hv => ?_,
    h.allSupported gone hothers hhanded hhere hnew hf.toWellFormed hf.supported⟩
  · rcases h.mem_cases hx with ⟨c, -, hc⟩ | hx
    · exact hf.staged x (mem_of_getElem? hc) y hy
    · exact hstaged x hx y hy
  · rcases h.mem_cases hx with ⟨c, hne, hc⟩ | hx
    · exact hdefs v (hf.defined x (mem_of_getElem? hc) v hv) (hothers c x hne hc v hv)
    · rcases hreads x hx v hv with ⟨hv, hgone⟩ | hv
      · exact hdefs v hv hgone
      · exact (h.mem_defs_iff hf.toWellFormed).2 (.inr hv)

end Blocks

theorem toList_modifyBlock {k : Block → Block} (hb : f.block? b = some block) :
    (f.modifyBlock b k).blocks.toList = f.blocks.toList.set b (k block) := by
  unfold modifyBlock
  dsimp only
  have hget : f.blocks.toList[b]? = some block := getElem?_toList.trans hb
  rw [toList_modify, modify_eq_set_getElem?, hget]
  rfl

end Replaces

end RefCount.Ir
