/-
The report on a valid function has no fault: every release is of a variable
with a type, every place that it speaks of is a place of the function, and the
variant of a boxed value can be looked for. So each release has its entry.
-/
import Mathlib
import RefCount.Proofs.Ir.DominatorTree
import RefCount.Proofs.Outcome
import RefCount.Proofs.Reuse.Annotate
import RefCount.Reuse.Report

namespace RefCount.Reuse

open Ir List

variable {pool : Pool} {f : Func} {b : BlockId} {block : Block} {i : Nat} {x : Instr}

/-- An instruction of a function. -/
def At (f : Func) (b : BlockId) (i : Nat) (x : Instr) : Prop :=
  ∃ block, f.block? b = some block ∧ block.code[i]? = some x

/-- A construction of a function. -/
def Built (f : Func) (s : Site) : Prop :=
  ∃ variant args, At f s.block s.pos (.construct s.var s.type variant args)

/-- The places where boxed objects are built. -/
theorem mem_constructSites (hf : WellFormed f) {c : Site} :
    c ∈ constructSites pool f ↔ pool.isBoxed c.type = true ∧ Built f c := by
  constructor
  · intro hc
    obtain ⟨block, hblock, hc⟩ := mem_flatMap.1 hc
    obtain ⟨⟨x, i⟩, hx, hc⟩ := mem_filterMap.1 hc
    obtain ⟨j, hj⟩ := Array.mem_iff_getElem?.1 (Array.mem_toList_iff.1 hblock)
    cases x with
    | construct dst type variant args =>
      dsimp only at hc
      split at hc
      · next hboxed =>
        cases hc
        refine ⟨hboxed, variant, args, block, ?_, mem_zipIdx_iff_getElem?.1 hx⟩
        rwa [hf.id j block hj]
      · cases hc
    | _ => cases hc
  · rintro ⟨hboxed, variant, args, block, hblock, hx⟩
    refine mem_flatMap.2 ⟨block, Array.mem_toList_iff.2 (Array.mem_of_getElem? hblock),
      mem_filterMap.2 ⟨(_, c.pos), mem_zipIdx_iff_getElem?.2 hx, ?_⟩⟩
    dsimp only
    rw [if_pos hboxed, hf.id _ block hblock]

/-- The release of a boxed value at a place of a block. -/
def release? (pool : Pool) (f : Func) (b : BlockId) : Instr × Nat → Option Site
  | (.dec v, i) => (f.type? v).bind fun t => if pool.isBoxed t then some ⟨b, i, v, t⟩ else none
  | _ => none

/-- The releases of boxed values that a function has, in order. -/
def releases (pool : Pool) (f : Func) : List Site :=
  f.blocks.toList.flatMap fun b => b.code.zipIdx.filterMap (release? pool f b.id)

theorem release?_eq_some {d : Site} (h : release? pool f b (x, i) = some d) :
    x = .dec d.var ∧ i = d.pos ∧ b = d.block ∧ f.type? d.var = some d.type ∧
      pool.isBoxed d.type = true := by
  cases x with
  | dec v =>
    obtain ⟨t, ht, h⟩ := Option.bind_eq_some_iff.1 h
    split at h
    · next hboxed =>
      cases h
      exact ⟨rfl, rfl, rfl, ht, hboxed⟩
    · cases h
  | _ => cases h

/-- In a valid function the type of what is released is known. -/
theorem releaseSite?_eq (hf : Valid .counted f) (hblock : block ∈ f.blocks)
    (hx : (x, i) ∈ block.code.zipIdx) :
    releaseSite? pool f block.id i x = .ok (release? pool f block.id (x, i)) := by
  cases x with
  | dec v =>
    have hcode := mem_of_getElem? (mem_zipIdx_iff_getElem?.1 hx)
    obtain ⟨t, ht⟩ := exists_type? hf.toWellFormed (hf.defined block hblock v
      (mem_append_left _ (mem_flatMap.2 ⟨_, hcode, mem_singleton_self v⟩)))
    rw [releaseSite?, ht, release?, ht]
    rfl
  | _ => rfl

/-- A reason is found for each release. -/
theorem missOf_ok (hf : WellFormed f) (hblock : f.block? b = some block) (dom : Dominators)
    {d : Site} (hd : d.block = block.id) (htype : f.type? d.var = some d.type)
    (hboxed : pool.isBoxed d.type = true) :
    ∃ m, missOf pool f dom (constructSites pool f) block d = .ok m := by
  unfold missOf
  dsimp only
  split
  · rename_i c hfind
    obtain ⟨-, _, _, block', hblock', hx⟩ := (mem_constructSites hf).1
      (mem_filter.1 (mem_of_find?_eq_some hfind)).1
    have hreason : ∃ reason, sameTypeReason pool f block d c = .ok reason := by
      unfold sameTypeReason
      split
      · exact ⟨_, rfl⟩
      · rename_i hsame
        rw [not_not, hd, hf.id b block hblock] at hsame
        rw [← hsame, hblock] at hblock'
        cases hblock'
        rw [if_neg (not_lt.2 (List.getElem?_eq_some_iff.1 hx).1.le)]
        split
        · exact ⟨_, rfl⟩
        · have hlt : block.id < f.blocks.size := by
            rw [hf.id b block hblock]
            exact (Array.getElem?_eq_some_iff.1 hblock).1
          obtain ⟨variant, hvariant⟩ := knownVariant?_ok hf hlt htype hboxed
            (block.code.take d.pos)
          rw [hvariant]
          cases variant with
          | none => exact ⟨_, rfl⟩
          | some variant => exact ⟨_, rfl⟩
    obtain ⟨reason, hreason⟩ := hreason
    rw [hreason]
    exact ⟨_, rfl⟩
  · exact ⟨_, rfl⟩
  · exact ⟨_, rfl⟩
  · exact ⟨_, rfl⟩

theorem forall₂_flatMap {α β γ : Type} {R : β → γ → Prop} {g : α → List β} {h : α → List γ}
    {xs : List α} (hall : ∀ x ∈ xs, Forall₂ R (g x) (h x)) :
    Forall₂ R (xs.flatMap g) (xs.flatMap h) := by
  induction xs with
  | nil => exact .nil
  | cons x xs ih =>
    exact rel_append (hall x mem_cons_self) (ih fun y hy => hall y (mem_cons_of_mem x hy))

/-- The report on a valid function has an entry for each release. -/
theorem report_eq (pool : Pool) (hf : Valid .counted f) :
    ∃ missed, report pool f = .ok ⟨achieved f, missed⟩ ∧
      Forall₂ (fun d m => ∃ block, f.block? d.block = some block ∧
        block.code[d.pos]? = some (.dec d.var) ∧ f.type? d.var = some d.type ∧
        pool.isBoxed d.type = true ∧
        missOf pool f f.dominators (constructSites pool f) block d = .ok m)
        (releases pool f) missed := by
  have hat : ∀ block ∈ f.blocks.toList,
      ∀ d ∈ block.code.zipIdx.filterMap (release? pool f block.id),
      f.block? d.block = some block ∧ d.block = block.id ∧
        block.code[d.pos]? = some (.dec d.var) ∧ f.type? d.var = some d.type ∧
        pool.isBoxed d.type = true := by
    intro block hblock d hd
    obtain ⟨⟨x, i⟩, hx, hd⟩ := mem_filterMap.1 hd
    obtain ⟨j, hj⟩ := Array.mem_iff_getElem?.1 (Array.mem_toList_iff.1 hblock)
    obtain ⟨rfl, rfl, hid, htype⟩ := release?_eq_some hd
    refine ⟨?_, hid.symm, mem_zipIdx_iff_getElem?.1 hx, htype⟩
    rwa [← hid, hf.id j block hj]
  have hmiss : ∀ block ∈ f.blocks.toList,
      ∀ d ∈ block.code.zipIdx.filterMap (release? pool f block.id),
      ∃ m, missOf pool f f.dominators (constructSites pool f) block d = .ok m := by
    intro block hblock d hd
    obtain ⟨hb, hid, -, htype, hboxed⟩ := hat block hblock d hd
    exact missOf_ok hf.toWellFormed hb f.dominators hid htype hboxed
  choose! miss hmiss using hmiss
  have hmissed : ∀ block ∈ f.blocks.toList,
      missedIn pool f f.dominators (constructSites pool f) block =
        .ok ((block.code.zipIdx.filterMap (release? pool f block.id)).map (miss block)) := by
    intro block hblock
    rw [map_filterMap]
    refine filterMapM_ok fun xi hxi => ?_
    dsimp only
    rw [releaseSite?_eq hf (Array.mem_toList_iff.1 hblock) hxi]
    simp only [bind, Except.bind]
    cases hd : release? pool f block.id xi with
    | none => rfl
    | some d =>
      dsimp only
      rw [hmiss block hblock d (mem_filterMap.2 ⟨xi, hxi, hd⟩)]
      rfl
  refine ⟨_, ?_, forall₂_flatMap (h := fun block =>
    (block.code.zipIdx.filterMap (release? pool f block.id)).map (miss block)) ?_⟩
  · rw [report, Dominators.checkFlow_ok hf.numbered]
    simp only [bind, Except.bind]
    rw [mapM_ok_of_forall hmissed, flatMap_def]
    rfl
  · intro block hblock
    rw [forall₂_map_right_iff, forall₂_same]
    intro d hd
    obtain ⟨hb, -, hspec⟩ := hat block hblock d hd
    exact ⟨block, hb, hspec.1, hspec.2.1, hspec.2.2, hmiss block hblock d hd⟩

end RefCount.Reuse
