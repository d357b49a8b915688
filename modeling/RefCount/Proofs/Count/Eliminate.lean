/-
Cancelling counts takes away counts and nothing else (`Thins`), so that a valid
function stays valid. It has no fault: the place of a count up is still there
when the counts down on the edges have been taken away, because a block that
leads to itself is left alone.
-/
import Mathlib
import RefCount.Proofs.Count.Anchor
import RefCount.Proofs.Ir.Alike

namespace RefCount.Count

open Ir List Option Array

variable {f : Func}

-- ======== code

section Code

variable {code code' code'' : List Instr} {v : Var} {x : Instr} {P : Var → Prop}
  {last : List Var}

theorem def?_of_isCount (hx : x.isCount = true) : x.def? = none := by
  cases x with
  | inc | dec => rfl
  | _ => cases hx

/-- Code and the same without some counts. -/
inductive Thins : List Instr → List Instr → Prop
  | nil : Thins [] []
  | keep (x : Instr) {code code' : List Instr} (h : Thins code code') :
      Thins (x :: code) (x :: code')
  | drop {x : Instr} (hx : x.isCount = true) {code code' : List Instr} (h : Thins code code') :
      Thins (x :: code) code'

namespace Thins

theorem refl : ∀ code : List Instr, Thins code code
  | [] => .nil
  | x :: code => .keep x (refl code)

/-- Code is thinned out twice. -/
theorem trans (h : Thins code code') (h' : Thins code' code'') : Thins code code'' := by
  induction h generalizing code'' with
  | nil => exact h'
  | keep x _ ih =>
    cases h' with
    | keep _ h' => exact .keep x (ih h')
    | drop hx h' => exact .drop hx (ih h')
  | drop hx _ ih => exact .drop hx (ih h')

theorem cons_of_isCount (hx : x.isCount = true) (code : List Instr) : Thins (x :: code) code :=
  .drop hx (refl code)

/-- Leaving out counts only thins code out. -/
theorem filter {p : Instr → Bool} (hp : ∀ x ∈ code, p x = false → x.isCount = true) :
    Thins code (code.filter p) := by
  induction code with
  | nil => exact .nil
  | cons x code ih =>
    have hrest := ih fun y hy => hp y (mem_cons_of_mem x hy)
    rw [filter_cons]
    split
    · exact .keep x hrest
    · rename_i hx
      exact .drop (hp x (.head _) (Bool.eq_false_iff.2 hx)) hrest

section

variable (h : Thins code code')
include h

theorem subset : code' ⊆ code := by
  induction h with
  | nil => exact Subset.refl _
  | keep x _ ih => exact cons_subset_cons x ih
  | drop _ _ ih => exact subset_cons_of_subset _ ih

/-- What holds a variable stays. -/
theorem mem_of_holds (hx : x ∈ code) (hv : Holds v x) : x ∈ code' := by
  induction h with
  | nil => exact hx
  | keep y _ ih =>
    rcases mem_cons.1 hx with rfl | hx
    · exact .head _
    · exact mem_cons_of_mem y (ih hx)
  | drop hy _ ih =>
    rcases mem_cons.1 hx with rfl | hx
    · rw [hv.2.1] at hy
      cases hy
    · exact ih hx

/-- The same variables are defined. -/
theorem filterMap_def :
    code'.filterMap Instr.def? = code.filterMap Instr.def? := by
  induction h with
  | nil => rfl
  | keep x _ ih => rw [filterMap_cons, filterMap_cons, ih]
  | @drop x hx _ _ _ ih =>
    rw [filterMap_cons, def?_of_isCount hx, ih]

/-- What is read is still there. -/
theorem supports (hcode : Supports P code last) :
    Supports P code' last := by
  induction h generalizing P with
  | nil => exact hcode
  | keep x _ ih => exact ⟨hcode.1, ih hcode.2⟩
  | @drop x hx _ _ _ ih =>
    refine ih (hcode.2.mono fun v => Or.rec id fun hv => ?_)
    rw [def?_of_isCount hx] at hv
    cases hv

/-- Releases still stand behind what they are for. -/
theorem covered (hcode : Covered v code) : Covered v code' := by
  induction h with
  | nil => trivial
  | keep x _ ih => exact hcode.imp_right (And.imp_right ih)
  | drop hx _ ih =>
    rcases hcode with ⟨-, hcount, -⟩ | ⟨-, hcode⟩
    · rw [hcount] at hx
      cases hx
    · exact ih hcode

theorem secures {Q : Var → Prop} (hcode : Secures Q code) :
    Secures Q code' := by
  induction h with
  | nil => trivial
  | keep x h ih =>
    refine ⟨fun v hx => (hcode.1 v hx).imp_left ?_, ih hcode.2⟩
    rintro ⟨y, hy, hv⟩
    exact ⟨y, h.mem_of_holds hy hv, hv⟩
  | drop _ _ ih => exact ih hcode.2

end

end Thins

-- ----------------------------------------------------------- within blocks

theorem eq_dec_of_isDec (h : isDec v x = true) : x = .dec v := by
  cases x with
  | dec w => rw [of_decide_eq_true h]
  | _ => cases h

theorem eq_inc_of_isInc (h : isInc v x = true) : x = .inc v := by
  cases x with
  | inc w => rw [of_decide_eq_true h]
  | _ => cases h

/-- A count down is taken out. -/
theorem withoutDec?_thins (h : withoutDec? v code = some code') : Thins code code' := by
  induction code generalizing code' with
  | nil => cases h
  | cons x code ih =>
    unfold withoutDec? at h
    split at h
    · rename_i hx
      cases h
      rw [eq_dec_of_isDec hx]
      exact .cons_of_isCount rfl code
    · split at h
      · cases h
      · obtain ⟨rest, hrest, rfl⟩ := map_eq_some_iff.1 h
        exact .keep x (ih hrest)

/-- A count up is taken out. -/
theorem withoutInc?_thins (h : withoutInc? v code = some code') : Thins code code' := by
  induction code generalizing code' with
  | nil => cases h
  | cons x code ih =>
    unfold withoutInc? at h
    split at h
    · rename_i hx
      cases h
      rw [eq_inc_of_isInc hx]
      exact .cons_of_isCount rfl code
    · split at h
      · obtain ⟨rest, hrest, rfl⟩ := map_eq_some_iff.1 h
        exact .keep x (ih hrest)
      · cases h

/-- A pair of counts is taken out. -/
theorem cancel?_thins (h : cancel? code = some code') : Thins code code' := by
  induction code generalizing code' with
  | nil => cases h
  | cons x code ih =>
    unfold cancel? at h
    split at h
    · rename_i found hfound
      cases h
      cases x with
      | inc v => exact .drop rfl (withoutDec?_thins hfound)
      | dec v => exact .drop rfl (withoutInc?_thins hfound)
      | _ => cases hfound
    · obtain ⟨rest, hrest, rfl⟩ := map_eq_some_iff.1 h
      exact .keep x (ih hrest)

/-- So are pairs one after the other. -/
theorem cancelAll_thins (steps : Nat) (code : List Instr) :
    Thins code (cancelAll steps code).1 := by
  induction steps generalizing code with
  | zero => exact .refl code
  | succ steps ih =>
    unfold cancelAll
    split
    · exact .refl code
    · rename_i code' hcode'
      exact (cancel?_thins hcode').trans (ih code')

/-- The count down that stands first is the one that a count up before would
cancel with. -/
theorem withoutDec?_of_leadingDec? {j : Nat} (h : leadingDec? v code = some j) :
    withoutDec? v code = some (code.eraseIdx j) := by
  induction code generalizing j with
  | nil => cases h
  | cons x code ih =>
    rw [leadingDec?] at h
    rw [withoutDec?]
    split at h
    · next hx =>
      cases h
      rw [if_pos hx]
      rfl
    · next hx =>
      rw [if_neg hx]
      split at h
      · cases h
      · next hblocks =>
        obtain ⟨j, hj, rfl⟩ := map_eq_some_iff.1 h
        rw [if_neg hblocks, ih hj]
        rfl

theorem thins_eraseIdx_of_inc {i : Nat} (h : code[i]? = some (.inc v)) :
    Thins code (code.eraseIdx i) := by
  induction code generalizing i with
  | nil => cases h
  | cons x code ih =>
    cases i with
    | zero =>
      cases h
      exact .cons_of_isCount rfl code
    | succ i => exact .keep x (ih h)

end Code

-- ======== functions

/-- Functions of which the second lacks some counts. -/
structure FuncThins (f g : Func) : Prop extends f.Alike g where
  code : ∀ b block block', f.block? b = some block → g.block? b = some block' →
    Thins block.code block'.code

namespace FuncThins

variable {f g h : Func} {b : BlockId} {stage : Stage}

theorem refl (f : Func) : FuncThins f f := by
  refine ⟨.refl f, fun b block block' hb hb' => ?_⟩
  rw [hb] at hb'
  rw [some.inj hb']
  exact .refl _

theorem trans (hfg : FuncThins f g) (hgh : FuncThins g h) : FuncThins f h := by
  refine ⟨hfg.toAlike.trans hgh.toAlike, fun b block block'' hb hb'' => ?_⟩
  obtain ⟨block', hb', -⟩ := hfg.forth hb
  exact (hfg.code b block block' hb hb').trans (hgh.code b block' block'' hb' hb'')

/-- One block is thinned out. -/
theorem modifyBlock {k : List Instr → List Instr}
    (hk : ∀ block, f.block? b = some block → Thins block.code (k block.code)) :
    FuncThins f (f.modifyBlock b fun block => { block with code := k block.code }) := by
  have hblock : ∀ i block block', f.block? i = some block →
      (f.modifyBlock b fun block => { block with code := k block.code }).block? i =
        some block' → block' = { block with code := block'.code } ∧
          Thins block.code block'.code := by
    intro i block block' hi hi'
    rw [Func.block?_modifyBlock] at hi'
    by_cases hib : i = b
    · subst hib
      rw [if_pos rfl, hi] at hi'
      cases hi'
      exact ⟨rfl, hk block hi⟩
    · rw [if_neg hib, hi] at hi'
      cases hi'
      exact ⟨rfl, .refl _⟩
  refine ⟨⟨rfl, rfl, rfl, forall₂_iff_get.2 ⟨?_, fun i hi hi' => ?_⟩⟩,
    fun i block block' hi hi' => (hblock i block block' hi hi').2⟩
  · simp [Func.modifyBlock]
  · obtain ⟨heq, hthins⟩ := hblock i _ _ (by
      rw [Func.block?, ← getElem?_toList]
      exact getElem?_eq_getElem hi) (by
      rw [Func.block?, ← getElem?_toList]
      exact getElem?_eq_getElem hi')
    rw [get_eq_getElem, get_eq_getElem, heq]
    exact ⟨rfl, rfl, hthins.filterMap_def, rfl⟩

/-- A function that is thinned out stays valid. -/
theorem valid (hfg : FuncThins f g) (hf : Valid stage f) : Valid stage g := by
  have hcases : ∀ b' ∈ g.blocks, ∃ i block, f.block? i = some block ∧ block.Alike b' ∧
      Thins block.code b'.code := by
    intro b' hb'
    obtain ⟨i, hi⟩ := mem_iff_getElem?.1 hb'
    obtain ⟨block, hblock, halike⟩ := hfg.back hi
    exact ⟨i, block, hblock, halike, hfg.code i block b' hblock hi⟩
  refine hfg.toAlike.valid hf (fun b' hb' x hx => ?_) (fun b' hb' v hv => ?_)
    fun b block block' hb hb' halike _ hsupported => ?_
  · obtain ⟨i, block, hblock, halike, hthins⟩ := hcases b' hb'
    rw [halike.id]
    exact hf.staged block (mem_of_getElem? hblock) x (hthins.subset hx)
  · obtain ⟨i, block, hblock, halike, hthins⟩ := hcases b' hb'
    refine hf.defined block (mem_of_getElem? hblock) v ?_
    rcases mem_append.1 hv with hv | hv
    · obtain ⟨x, hx, hv⟩ := mem_flatMap.1 hv
      exact mem_append_left _ (mem_flatMap.2 ⟨x, hthins.subset hx, hv⟩)
    · rw [halike.termUses_eq] at hv
      exact mem_append_right _ hv
  · unfold Func.Supported
    rw [halike.params, halike.termUses_eq]
    exact (hfg.code b block block' hb hb').supports hsupported

/-- What is counted is still defined before. -/
theorem anchored (hfg : FuncThins f g) (hf : Anchored f) : Anchored g := by
  intro b block' hb' hloop
  obtain ⟨block, hb, halike⟩ := hfg.back hb'
  rw [halike.successors_eq] at hloop
  refine ((hfg.code b block block' hb hb').secures (hf b block hb hloop)).mono ?_
  rintro v - (hv | ⟨t, ht, target, htarget, hv⟩)
  · exact .inl (halike.termUses_eq ▸ hv)
  · obtain ⟨target', htarget', -⟩ := hfg.forth htarget
    exact .inr ⟨t, halike.successors_eq ▸ ht, target', htarget',
      (hfg.code t target target' htarget htarget').covered hv⟩

end FuncThins

-- --------------------------------------------------------------- in blocks

/-- Each block is cancelled on its own. -/
theorem blocks_cancelBlocks (f : Func) : (cancelBlocks f).1.blocks = f.blocks.map fun b =>
    { b with code := (cancelAll b.code.length b.code).1 } := by
  unfold cancelBlocks
  dsimp only
  rw [Array.zipWith_map_right]
  refine Array.ext_getElem? fun i => ?_
  rw [Array.getElem?_zipWith, Array.getElem?_map]
  cases f.blocks[i]? with
  | none => rfl
  | some b => rfl

theorem block?_cancelBlocks (f : Func) (i : BlockId) :
    (cancelBlocks f).1.block? i = (f.block? i).map fun b =>
      { b with code := (cancelAll b.code.length b.code).1 } := by
  rw [Func.block?, blocks_cancelBlocks, Array.getElem?_map]
  rfl

/-- Pairs within blocks are taken out. -/
theorem cancelBlocks_thins (f : Func) : FuncThins f (cancelBlocks f).1 := by
  refine ⟨⟨rfl, rfl, rfl, ?_⟩, fun b block block' hb hb' => ?_⟩
  · rw [blocks_cancelBlocks, Array.toList_map, List.forall₂_map_right_iff, List.forall₂_same]
    exact fun b _ => ⟨rfl, rfl, (cancelAll_thins _ _).filterMap_def, rfl⟩
  · rw [block?_cancelBlocks, hb] at hb'
    cases hb'
    exact cancelAll_thins _ _

-- ------------------------------------------------------------ across edges

section Edges

variable {f : Func} {b : BlockId}
variable {i : Nat} {found : List (BlockId × Nat)} {v : Var} {succs : List BlockId}

theorem codeOf_eq {block : Block} (hb : f.block? b = some block) : codeOf f b = block.code := by
  rw [codeOf, hb]
  rfl

theorem codeOf_modifyBlock_of_ne {s : BlockId} (hne : b ≠ s) (k : Block → Block) :
    codeOf (f.modifyBlock s k) b = codeOf f b := by
  rw [codeOf, codeOf, Func.block?_modifyBlock, if_neg hne]

theorem eraseAt_thins (h : Thins (codeOf f b) ((codeOf f b).eraseIdx i)) :
    FuncThins f (eraseAt f b i) := by
  refine FuncThins.modifyBlock (k := fun code => code.eraseIdx i) fun block hb => ?_
  rwa [codeOf_eq hb] at h

theorem codeOf_eraseAt (f : Func) (b : BlockId) (i : Nat) :
    codeOf (eraseAt f b i) b = (codeOf f b).eraseIdx i := by
  rw [codeOf, codeOf, eraseAt, Func.block?_modifyBlock, if_pos rfl]
  cases f.block? b <;> rfl

/-- Blocks where nothing was found stay. -/
theorem codeOf_eraseAll_of_not_mem (hb : b ∉ found.map Prod.fst) :
    codeOf (found.foldl (fun f p => eraseAt f p.1 p.2) f) b = codeOf f b := by
  induction found generalizing f with
  | nil => rfl
  | cons p found ih =>
    rw [map_cons, mem_cons, not_or] at hb
    rw [foldl_cons, ih hb.2, eraseAt, codeOf_modifyBlock_of_ne hb.1]

/-- Where something was found one instruction goes. -/
theorem codeOf_eraseAll (hnd : (found.map Prod.fst).Nodup) {p : BlockId × Nat} (hp : p ∈ found) :
    codeOf (found.foldl (fun f p => eraseAt f p.1 p.2) f) p.1 =
      (codeOf f p.1).eraseIdx p.2 := by
  induction found generalizing f with
  | nil => cases hp
  | cons q found ih =>
    rw [map_cons, nodup_cons] at hnd
    rw [foldl_cons]
    rcases mem_cons.1 hp with rfl | hp
    · rw [codeOf_eraseAll_of_not_mem hnd.1, codeOf_eraseAt]
    · rw [ih hnd.2 hp, eraseAt, codeOf_modifyBlock_of_ne]
      exact fun heq => hnd.1 (heq ▸ mem_map_of_mem hp)

/-- Taking the counts down off the edges. -/
theorem eraseAll_thins (hnd : (found.map Prod.fst).Nodup)
    (hfound : ∀ p ∈ found, leadingDec? v (codeOf f p.1) = some p.2) :
    FuncThins f (found.foldl (fun f p => eraseAt f p.1 p.2) f) := by
  induction found generalizing f with
  | nil => exact .refl f
  | cons p found ih =>
    rw [map_cons, nodup_cons] at hnd
    have hdec := withoutDec?_of_leadingDec? (hfound p (.head _))
    refine (eraseAt_thins (withoutDec?_thins hdec)).trans
      (ih hnd.2 fun q hq => ?_)
    have hne : q.1 ≠ p.1 := fun heq => hnd.1 (heq ▸ mem_map_of_mem hq)
    rw [eraseAt, codeOf_modifyBlock_of_ne hne]
    exact hfound q (mem_cons_of_mem p hq)

/-- The counts down that are found are on all edges. -/
theorem found_spec
    (h : (succs.mapM fun s => (leadingDec? v (codeOf f s)).map fun j => (s, j)) = some found) :
    found.map Prod.fst = succs ∧ ∀ p ∈ found, leadingDec? v (codeOf f p.1) = some p.2 := by
  induction succs generalizing found with
  | nil =>
    cases h
    exact ⟨rfl, fun p hp => nomatch hp⟩
  | cons s succs ih =>
    rw [mapM_cons] at h
    obtain ⟨p, hp, h⟩ := bind_eq_some_iff.1 h
    obtain ⟨rest, hrest, h⟩ := bind_eq_some_iff.1 h
    obtain rfl : p :: rest = found := some.inj h
    obtain ⟨j, hj, rfl⟩ := map_eq_some_iff.1 hp
    obtain ⟨hfst, hall⟩ := ih hrest
    refine ⟨by rw [map_cons, hfst], fun q hq => ?_⟩
    rcases mem_cons.1 hq with rfl | hq
    · exact hj
    · exact hall q hq

/-- A count up is cancelled with a count down on every edge. -/
structure Found (f : Func) (b : BlockId) (i : Nat) (v : Var) (found : List (BlockId × Nat)) :
    Prop where
  inc : (codeOf f b)[i]? = some (.inc v)
  term : ¬(((f.block? b).map (·.termUses)).getD []).contains v = true
  behind : ¬((codeOf f b).drop (i + 1)).any (blocks · v) = true
  edges : found.map Prod.fst = f.successors b
  decs : ∀ p ∈ found, leadingDec? v (codeOf f p.1) = some p.2

/-- A function without the counts that are found. -/
def without (f : Func) (b : BlockId) (i : Nat) (found : List (BlockId × Nat)) : Func :=
  eraseAt (found.foldl (fun f p => eraseAt f p.1 p.2) f) b i

/-- What is found stands in different blocks. -/
theorem Found.nodup (h : Found f b i v found) : (found.map Prod.fst).Nodup := by
  rw [h.edges]
  exact f.nodup_successors b

/-- A count up at the end goes with those that were found. -/
theorem Found.thins (h : Found f b i v found) (hloop : b ∉ f.successors b) :
    FuncThins f (without f b i found) := by
  refine (eraseAll_thins h.nodup h.decs).trans (eraseAt_thins ?_)
  rw [codeOf_eraseAll_of_not_mem (h.edges ▸ hloop)]
  exact thins_eraseIdx_of_inc h.inc

/-- Cancelling a count at the end of a block does nothing, or takes it away
with those on the edges; there is no fault if the block does not lead to
itself. -/
theorem cancelOut_cases (b : BlockId) (i : Nat)
    (hloop : ∀ v found, Found f b i v found → b ∉ f.successors b) :
    cancelOut f b (f.successors b) i = .ok (f, 0) ∨ ∃ v found, Found f b i v found ∧
      cancelOut f b (f.successors b) i = .ok (without f b i found, 1) := by
  unfold cancelOut
  split
  · rename_i v hv
    dsimp only
    split
    · exact .inl rfl
    · rename_i hfree
      rw [Bool.or_eq_true, not_or] at hfree
      split
      · exact .inl rfl
      · rename_i found hfound
        obtain ⟨hfst, hdecs⟩ := found_spec hfound
        have h : Found f b i v found := ⟨hv, hfree.1, hfree.2, hfst, hdecs⟩
        refine .inr ⟨v, found, h, ?_⟩
        rw [if_neg, without]
        rw [codeOf_eraseAll_of_not_mem (hfst ▸ hloop v found h), not_le]
        exact (List.getElem?_eq_some_iff.1 hv).1
  · exact .inl rfl

/-- A count at the end of a block that leads to itself is not cancelled. -/
theorem not_successor_of_found (hf : Anchored f) (h : Found f b i v found) :
    b ∉ f.successors b := by
  intro hloop
  obtain ⟨hv, hterm, hbehind, hfst, hdecs⟩ := h
  obtain ⟨block, hblock, hloop⟩ := Func.exists_of_successor hloop
  rw [codeOf_eq hblock] at hv hbehind
  rw [hblock] at hterm
  rcases (hf b block hblock hloop).at hv with
    ⟨x, hx, hholds⟩ | hv | ⟨t, ht, target, htarget, hcovered⟩
  · refine hbehind (any_eq_true.2 ⟨x, hx, ?_⟩)
    rw [blocks, Instr.usesVar, Bool.or_eq_true]
    exact .inl (contains_iff_mem.2 hholds.1)
  · exact hterm (contains_iff_mem.2 hv)
  · rw [Func.successors_eq hblock] at hfst
    obtain ⟨p, hp, rfl⟩ := mem_map.1 (hfst ▸ ht)
    have hdec := hdecs p hp
    rw [codeOf_eq htarget, leadingDec?_of_covered hcovered] at hdec
    cases hdec

/-- Cancelling a count at the end of a block has no fault. -/
theorem cancelOut_thins (hf : Anchored f) (b : BlockId) (i : Nat) :
    ∃ r, cancelOut f b (f.successors b) i = .ok r ∧ FuncThins f r.1 := by
  rcases cancelOut_cases b i fun v found h => not_successor_of_found hf h with
    h | ⟨v, found, hfound, h⟩
  · exact ⟨_, h, .refl f⟩
  · exact ⟨_, h, hfound.thins (not_successor_of_found hf hfound)⟩

/-- It can be told whether blocks have one predecessor. -/
theorem leadsAlone_ok (h : ∀ s ∈ succs, s < f.blocks.size) :
    ∃ alone, leadsAlone f succs = .ok alone := by
  induction succs with
  | nil => exact ⟨true, rfl⟩
  | cons s succs ih =>
    unfold leadsAlone
    rw [if_neg (not_le.2 (h s mem_cons_self))]
    split
    · exact ih fun t ht => h t (mem_cons_of_mem s ht)
    · exact ⟨false, rfl⟩

/-- A fold of steps that each take away counts does. -/
theorem foldlM_thins {α : Type} {step : Func × Nat → α → Except Fault (Func × Nat)}
    (f₀ : Func) (hstep : ∀ s a, FuncThins f₀ s.1 → ∃ r, step s a = .ok r ∧ FuncThins s.1 r.1)
    (as : List α) (s : Func × Nat) (hs : FuncThins f₀ s.1) :
    ∃ r, as.foldlM step s = .ok r ∧ FuncThins s.1 r.1 := by
  induction as generalizing s with
  | nil => exact ⟨s, rfl, .refl _⟩
  | cons a as ih =>
    obtain ⟨r, hr, hthins⟩ := hstep s a hs
    obtain ⟨r', hr', hthins'⟩ := ih r (hs.trans hthins)
    refine ⟨r', ?_, hthins.trans hthins'⟩
    rw [foldlM_cons, hr]
    exact hr'

/-- Pairs across the end of a block are taken out. -/
theorem cancelEnd_thins (hf : WellFormed f) (hanchored : Anchored f) (b : BlockId) :
    ∃ r, cancelEnd f b = .ok r ∧ FuncThins f r.1 := by
  unfold cancelEnd
  dsimp only
  split
  · exact ⟨(f, 0), rfl, .refl f⟩
  · obtain ⟨alone, halone⟩ := leadsAlone_ok fun s hs => hf.lt_of_successor hs
    rw [halone]
    cases alone with
    | false => exact ⟨(f, 0), rfl, .refl f⟩
    | true =>
      refine foldlM_thins f (fun s i hs => ?_) _ (f, 0) (.refl f)
      obtain ⟨r, hr, hthins⟩ := cancelOut_thins (hs.anchored hanchored) b i
      rw [hs.successors_eq] at hr
      rw [hr]
      exact ⟨_, rfl, hthins⟩

/-- The same for all blocks. -/
theorem cancelEdges_thins (hf : WellFormed f) (hanchored : Anchored f) :
    ∃ r, cancelEdges f = .ok r ∧ FuncThins f r.1 := by
  refine foldlM_thins f (fun s b hs => ?_) _ (f, 0) (.refl f)
  obtain ⟨g, n⟩ := s
  obtain ⟨r, hr, hthins⟩ := cancelEnd_thins (hs.wellFormed hf) (hs.anchored hanchored) b
  dsimp only at hr ⊢
  rw [hr]
  exact ⟨_, rfl, hthins⟩

end Edges

-- -------------------------------------------------------------- to the end

/-- Rounds only thin a function out. By induction on the rounds. -/
theorem eliminateWithin_thins (rounds : Nat) (hf : WellFormed f) (hanchored : Anchored f) :
    ∃ r, eliminateWithin rounds f = .ok r ∧ FuncThins f r.1 := by
  induction rounds generalizing f with
  | zero => exact ⟨(f, 0), rfl, .refl f⟩
  | succ rounds ih =>
    have hblocks := cancelBlocks_thins f
    obtain ⟨r, hr, hedges⟩ := cancelEdges_thins (hblocks.wellFormed hf)
      (hblocks.anchored hanchored)
    have hboth := hblocks.trans hedges
    obtain ⟨r', hr', hrest⟩ := ih (hboth.wellFormed hf) (hboth.anchored hanchored)
    unfold eliminateWithin
    simp only [bind, Except.bind, hr]
    split
    · exact ⟨_, rfl, hboth⟩
    · rw [hr']
      exact ⟨_, rfl, hboth.trans hrest⟩

/-- Cancelling takes away counts, without a fault. -/
theorem eliminate_thins (hf : WellFormed f) (hanchored : Anchored f) :
    ∃ r, eliminate f = .ok r ∧ FuncThins f r.1 :=
  eliminateWithin_thins _ hf hanchored

end RefCount.Count
