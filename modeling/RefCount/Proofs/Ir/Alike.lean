/-
Functions that differ in code only, and there not in what is defined. They
have the same edges, so the same blocks are reached and the same variables are
supplied; whether one is valid depends on its own uses alone.
-/
import Mathlib
import RefCount.Proofs.Ir.Check

namespace RefCount.Ir

open List Array

/-- Blocks that differ in code, but not in what it defines. -/
structure Block.Alike (b b' : Block) : Prop where
  id : b'.id = b.id
  params : b'.params = b.params
  defs : b'.code.filterMap Instr.def? = b.code.filterMap Instr.def?
  term : b'.term = b.term

namespace Block.Alike

variable {b b' b'' : Block}

theorem refl (b : Block) : b.Alike b := ⟨rfl, rfl, rfl, rfl⟩

section

variable (h : b.Alike b')
include h

theorem trans (h' : b'.Alike b'') : b.Alike b'' :=
  ⟨h'.id.trans h.id, h'.params.trans h.params, h'.defs.trans h.defs, h'.term.trans h.term⟩

theorem defs_eq : b'.defs = b.defs := by
  rw [Block.defs, Block.defs, h.params, h.defs]

theorem successors_eq : b'.successors = b.successors := by
  rw [Block.successors, Block.successors, h.term]

theorem leadsTo_eq (t : BlockId) : b'.leadsTo t = b.leadsTo t := by
  rw [Block.leadsTo, Block.leadsTo, h.term]

theorem termUses_eq : b'.termUses = b.termUses := by
  rw [Block.termUses, Block.termUses, h.term]

/-- What an edge hands over fits the parameters as before. -/
theorem edgeFits_iff {target target' : Block} (ht : target.Alike target') :
    EdgeFits b' target' ↔ EdgeFits b target := by
  rw [EdgeFits, EdgeFits, h.term, ht.params]

end

end Block.Alike

/-- Functions whose blocks differ in code, but not in what it defines. -/
structure Func.Alike (f g : Func) : Prop where
  params : g.params = f.params
  entry : g.entry = f.entry
  types : g.types = f.types
  blocks : List.Forall₂ Block.Alike f.blocks.toList g.blocks.toList

namespace Func.Alike

variable {f g h : Func} {b : BlockId} {block : Block} {v : Var} {stage : Stage}

theorem refl (f : Func) : f.Alike f := ⟨rfl, rfl, rfl, forall₂_same.2 fun b _ => .refl b⟩

theorem trans (hfg : f.Alike g) (hgh : g.Alike h) : f.Alike h where
  params := hgh.params.trans hfg.params
  entry := hgh.entry.trans hfg.entry
  types := hgh.types.trans hfg.types
  blocks := by
    refine forall₂_iff_get.2 ⟨hfg.blocks.length_eq.trans hgh.blocks.length_eq, ?_⟩
    intro i hi hi'
    have hi'' : i < g.blocks.toList.length := by rwa [← hfg.blocks.length_eq]
    exact ((forall₂_iff_get.1 hfg.blocks).2 i hi hi'').trans
      ((forall₂_iff_get.1 hgh.blocks).2 i hi'' hi')

variable (hfg : f.Alike g)
include hfg

theorem size : g.blocks.size = f.blocks.size := by
  simpa using hfg.blocks.length_eq.symm

/-- Every block has one that is like it. -/
theorem forth (hb : f.block? b = some block) :
    ∃ block', g.block? b = some block' ∧ block.Alike block' := by
  rw [block?, ← Array.getElem?_toList] at hb
  obtain ⟨block', hget, halike⟩ := forall₂_getElem? hfg.blocks hb
  exact ⟨block', by rwa [Array.getElem?_toList] at hget, halike⟩

/-- Every block is like one that was there. -/
theorem back {block' : Block} (hb : g.block? b = some block') :
    ∃ block, f.block? b = some block ∧ block.Alike block' := by
  rw [block?, ← Array.getElem?_toList] at hb
  obtain ⟨block, hget, halike⟩ := forall₂_getElem? hfg.blocks.flip hb
  exact ⟨block, by rwa [Array.getElem?_toList] at hget, halike⟩

theorem none (hb : f.block? b = none) : g.block? b = none := by
  refine Option.eq_none_iff_forall_ne_some.2 fun block' h' => ?_
  obtain ⟨block, hblock, -⟩ := hfg.back h'
  rw [hb] at hblock
  cases hblock

theorem defs_eq : g.defs = f.defs := by
  have hflat : ∀ {xs ys : List Block}, List.Forall₂ Block.Alike xs ys →
      ys.flatMap Block.defs = xs.flatMap Block.defs := by
    intro xs ys h
    induction h with
    | nil => rfl
    | cons hx _ ih => rw [flatMap_cons, flatMap_cons, hx.defs_eq, ih]
  rw [Func.defs, Func.defs, hfg.params, hflat hfg.blocks]

theorem preds_eq (b : BlockId) : g.preds b = f.preds b := by
  have hlist : ∀ {xs ys : List Block}, List.Forall₂ Block.Alike xs ys →
      (ys.filter (·.leadsTo b)).map (·.id) = (xs.filter (·.leadsTo b)).map (·.id) := by
    intro xs ys h
    induction h with
    | nil => rfl
    | cons hx _ ih =>
      rw [filter_cons, filter_cons, hx.leadsTo_eq]
      split
      · rw [map_cons, map_cons, ih, hx.id]
      · exact ih
  exact hlist hfg.blocks

theorem successors_eq (b : BlockId) : g.successors b = f.successors b := by
  cases hb : f.block? b with
  | none => rw [successors, successors, hb, hfg.none hb]
  | some block =>
    obtain ⟨block', hb', halike⟩ := hfg.forth hb
    rw [Func.successors_eq hb, Func.successors_eq hb', halike.successors_eq]

/-- The same blocks can be reached. -/
theorem reachable_iff : g.Reachable b ↔ f.Reachable b := by
  constructor
  · intro h
    induction h with
    | entry =>
      rw [hfg.entry]
      exact .entry
    | edge _ ht ih =>
      rw [hfg.successors_eq] at ht
      exact .edge ih ht
  · intro h
    induction h with
    | entry =>
      rw [← hfg.entry]
      exact .entry
    | edge _ ht ih =>
      rw [← hfg.successors_eq] at ht
      exact .edge ih ht

/-- The same ways go around the definition of a variable. -/
theorem misses_iff : g.Misses v b ↔ f.Misses v b := by
  constructor
  · intro h
    induction h with
    | entry h =>
      rw [hfg.entry]
      exact .entry (by rwa [← hfg.params])
    | edge _ hb hv ht ih =>
      obtain ⟨block, hblock, halike⟩ := hfg.back hb
      exact .edge ih hblock (by rwa [← halike.defs_eq]) (by rwa [← halike.successors_eq])
  · intro h
    induction h with
    | entry h =>
      rw [← hfg.entry]
      exact .entry (by rwa [hfg.params])
    | edge _ hb hv ht ih =>
      obtain ⟨block', hblock', halike⟩ := hfg.forth hb
      exact .edge ih hblock' (by rwa [halike.defs_eq]) (by rwa [halike.successors_eq])

/-- A function that is like a well-formed one is well-formed. -/
theorem wellFormed (hf : WellFormed f) : WellFormed g where
  entry := by
    obtain ⟨block, hb⟩ := hf.entry
    obtain ⟨block', hb', -⟩ := hfg.forth hb
    exact ⟨block', by rw [hfg.entry, hb']⟩
  entryFree := by rw [hfg.entry, hfg.preds_eq, hf.entryFree]
  id i b hb := by
    obtain ⟨block, hblock, halike⟩ := hfg.back hb
    rw [halike.id, hf.id i block hblock]
  nodup := by
    rw [hfg.defs_eq]
    exact hf.nodup
  bound := by
    rw [hfg.defs_eq, hfg.types]
    exact hf.bound
  term b hb := by
    obtain ⟨i, hi⟩ := mem_iff_getElem?.1 hb
    obtain ⟨block, hblock, halike⟩ := hfg.back hi
    rw [halike.term]
    exact hf.term block (mem_of_getElem? hblock)
  edge b hb t ht := by
    obtain ⟨i, hi⟩ := mem_iff_getElem?.1 hb
    obtain ⟨block, hblock, halike⟩ := hfg.back hi
    rw [halike.successors_eq] at ht
    obtain ⟨target, htarget, hfits⟩ := hf.edge block (mem_of_getElem? hblock) t ht
    obtain ⟨target', htarget', halike'⟩ := hfg.forth htarget
    exact ⟨target', htarget', (halike.edgeFits_iff halike').2 hfits⟩

/-- A function is valid if its uses are supported by what supports those of
another. -/
theorem valid {stage' : Stage} (hf : Valid stage f)
    (hstaged : ∀ b ∈ g.blocks, ∀ x ∈ b.code, checkStage stage' b.id x = .ok ())
    (hdefined : ∀ b ∈ g.blocks, ∀ v ∈ b.reads, v ∈ f.defs)
    (hsupported : ∀ b block block', f.block? b = some block → g.block? b = some block' →
      block.Alike block' → f.Reachable b → Func.Supported block (fun v => ¬f.Misses v b) →
      Func.Supported block' (fun v => ¬f.Misses v b)) :
    Valid stage' g where
  toWellFormed := hfg.wellFormed hf.toWellFormed
  staged := hstaged
  defined b hb v hv := by
    rw [hfg.defs_eq]
    exact hdefined b hb v hv
  supported b block' hb hblock' := by
    have hb' := hfg.reachable_iff.1 hb
    obtain ⟨block, hblock, halike⟩ := hfg.back hblock'
    have h := hsupported b block block' hblock hblock' halike hb'
      (hf.supported b block hb' hblock)
    exact h.mono fun v => Or.imp (fun hm hg => hm (hfg.misses_iff.1 hg)) id

end Func.Alike

end RefCount.Ir
