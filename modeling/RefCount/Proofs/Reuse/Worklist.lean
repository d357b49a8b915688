/-
Expanding all pairs of a function. Each step takes the first waiting block: if
there is no reset in it, it waits no longer; otherwise there is one reset less in
the function, and at most two blocks wait in its place (`Stepped`). So the blocks
that wait, and the resets counted twice, are fewer after each step, and the steps
that are allowed are enough. Every block with a reset waits all the time
(`Waits`): at the end there is none.
-/
import Mathlib
import RefCount.Proofs.Reuse.Expand

namespace RefCount.Reuse

open Ir RefCount.Count List Array

variable {pool : Pool} {cls : Classes} {f g : Func} {b : BlockId} {block block' : Block}
  {new : List Block} {reset : ResetAt} {reuse : ReuseAt}

-- ======== resets

/-- The resets of a block. -/
def resetsOf (b : Block) : List Instr := b.code.filter isReset

theorem resetCount_eq (f : Func) : resetCount f = (f.blocks.toList.flatMap resetsOf).length := by
  rw [resetCount, Func.instrs, List.filter_flatMap]
  rfl

theorem resetsOf_eq_nil_iff : resetsOf block = [] ↔ ∀ token v, .reset token v ∉ block.code := by
  rw [resetsOf, filter_eq_nil_iff]
  refine ⟨fun h token v hv => h _ hv rfl, fun h x hx hreset => ?_⟩
  cases x with
  | reset token v => exact h token v hx
  | _ => cases hreset

theorem resetsOf_eq_nil_of_isPlain (h : ∀ x ∈ block.code, isPlain x = true) : resetsOf block = [] :=
  resetsOf_eq_nil_iff.2 fun _ _ hv => absurd (h _ hv) Bool.false_ne_true

theorem filter_strip {p : Instr → Bool} (hp : ∀ v, p (.inc v) = false) (claims : Claims)
    (code : List Instr) : (claims.strip code).filter p = code.filter p := by
  rw [Claims.strip, List.filter_filter]
  refine filter_congr fun x _ => ?_
  cases x with
  | inc v => rw [hp, Bool.false_and]
  | _ => exact Bool.and_true _

/-- A valid function without resets has no tokens at all. -/
theorem Expanding.expanded (hf : Expanding f) (hno : resetCount f = 0) : Valid .expanded f := by
  refine ⟨hf.valid.toWellFormed, fun x hx y hy => ?_, hf.valid.defined, hf.valid.supported⟩
  have hnone : resetsOf x = [] := by
    rw [resetCount_eq, length_eq_zero_iff, flatMap_eq_nil_iff] at hno
    exact hno x (mem_toList_iff.2 hx)
  have hplain := isPlain_of_no_reset (hf.paired.nested x hx) (resetsOf_eq_nil_iff.1 hnone) y hy
  cases y with
  | reset | reuse => cases hplain
  | _ => rfl

-- ======== steps

/-- Whether every block that waits is there, and every block with a reset
waits. -/
structure Waits (f : Func) (waiting : List BlockId) : Prop where
  lt : ∀ i ∈ waiting, i < f.blocks.size
  mem : ∀ i x, f.block? i = some x → resetsOf x ≠ [] → i ∈ waiting

/-- What a step at a block does: there is a reset less, and at most two blocks
wait for it. -/
structure Stepped (f : Func) (b : BlockId) (e : Expanded) : Prop where
  expanding : Expanding e.func
  fewer : resetCount e.func + 1 = resetCount f
  length : e.blocks.length ≤ 2
  size : f.blocks.size ≤ e.func.blocks.size
  lt : ∀ i ∈ e.blocks, i < e.func.blocks.size
  mem : ∀ i x, e.func.block? i = some x → resetsOf x ≠ [] → i ∈ e.blocks ∨
    i ≠ b ∧ f.block? i = some x

theorem Stepped.waits {e : Expanded} {waiting : List BlockId} (h : Stepped f b e)
    (hw : Waits f (b :: waiting)) : Waits e.func (e.blocks.reverse ++ waiting) where
  lt i hi := by
    rcases mem_append.1 hi with hi | hi
    · exact h.lt i (mem_reverse.1 hi)
    · exact (hw.lt i (mem_cons_of_mem b hi)).trans_le h.size
  mem i x hx hreset := by
    rcases h.mem i x hx hreset with hi | ⟨hne, hi⟩
    · exact mem_append_left _ (mem_reverse.2 hi)
    · exact mem_append_right _ ((mem_cons.1 (hw.mem i x hi hreset)).resolve_left hne)

/-- A block that is replaced by others with one reset less. -/
theorem stepped_of_replaces {e : Expanded} (hr : Replaces f e.func b block block' new)
    (hexpanding : Expanding e.func)
    (hfewer : (resetsOf block' ++ new.flatMap resetsOf).length + 1 = (resetsOf block).length)
    (hlength : e.blocks.length ≤ 2) (hb : b ∈ e.blocks)
    (hlt : ∀ i ∈ e.blocks, i < f.blocks.size + new.length)
    (hnew : ∀ i x, new[i]? = some x → resetsOf x ≠ [] → f.blocks.size + i ∈ e.blocks) :
    Stepped f b e := by
  have hsize : e.func.blocks.size = f.blocks.size + new.length := by
    rw [← length_toList, hr.blocks]
    simp
  refine ⟨hexpanding, ?_, hlength, hsize ▸ Nat.le_add_right _ _, hsize ▸ hlt, ?_⟩
  · obtain ⟨rest, hold, hnow⟩ := hr.flatMap_perm resetsOf
    rw [resetCount_eq, resetCount_eq, hold.length_eq, hnow.length_eq, length_append,
      add_assoc, hfewer, length_append]
  · intro i x hx hreset
    rcases hr.block_cases hx with ⟨rfl, -⟩ | hold | ⟨j, rfl, hj⟩
    · exact .inl hb
    · exact .inr hold
    · exact .inl (hnew j x hj hreset)

namespace PairSite

theorem resetsOf_eq (h : PairSite f b block reset reuse) :
    (resetsOf block).length = (reset.before.filter isReset).length + 1 +
      (reuse.before.filter isReset).length + (reuse.behind.filter isReset).length := by
  rw [resetsOf, h.code]
  simp only [List.filter_append, List.filter_cons, Rebuild.reuse, isReset, List.length_append,
    if_true, length_cons, Bool.false_eq_true, if_false]
  omega

/-- A pair of unknown variant. -/
theorem stepped_undone (h : PairSite f b block reset reuse) (hf : Expanding f)
    (stats : ExpandStats) : Stepped f b ⟨withCode f b (undone reset reuse), stats, [b]⟩ := by
  have hr := h.replaces_undone hf.valid.toWellFormed
  refine stepped_of_replaces hr (h.expanding_undone hf) ?_ (Nat.le_succ 1) (mem_singleton_self b)
    (fun i hi => ?_) fun i x hi => (by cases hi)
  · rw [h.resetsOf_eq]
    simp only [resetsOf, undone, List.filter_append, List.filter_cons, Rebuild.construct, isReset,
      List.length_append, flatMap_nil, append_nil, Bool.false_eq_true, if_false]
    omega
  · rw [mem_singleton.1 hi]
    exact hr.lt

theorem stepped_pair (pool : Pool) (cls : Classes) (h : PairSite f b block reset reuse)
    (hf : Expanding f) (old : Int) :
    ∃ e, expandPair pool cls f b block reset reuse old = .ok e ∧ Stepped f b e := by
  obtain ⟨e, f₁, f₂, update, more, he, hupdates, hsize, -, hcases⟩ :=
    h.expandPair_ok hf.valid old rfl
  refine ⟨e, he, ?_⟩
  have htest : ∀ (claims : Claims) (shared : Var), (resetsOf (testBlock block claims
      (reset.before ++ reuse.before) shared reset.var f.blocks.size)).length =
      (reset.before.filter isReset).length + (reuse.before.filter isReset).length := by
    intro claims shared
    unfold resetsOf testBlock
    dsimp only
    rw [List.filter_append, filter_strip fun _ => rfl, List.filter_append]
    simp [isReset]
  have hupdate : ∀ n term, resetsOf (updateBlock n update term) = [] := fun n term =>
    resetsOf_eq_nil_of_isPlain hupdates.plain
  have hbuild : ∀ n (claims : Claims) built term,
      resetsOf (buildBlock n claims reset.var reuse.rebuild built term) = [] := by
    intro n claims built term
    unfold resetsOf buildBlock
    simp [isReset, Rebuild.construct]
  rcases hcases with ⟨term, hterm, hbehind, hunread, hblocks, hg⟩ | ⟨t, hblocks, hg⟩
  · obtain ⟨hexpanding, hr⟩ := h.expanding_split hf rfl hupdates hsize hterm hbehind hunread hg
    have hnone : ∀ x ∈ splitBlocks f.blocks.size update
        (claimsIn reset.var reuse.before [] reset.before) reset.var reuse.rebuild term,
        resetsOf x = [] := by
      intro x hx
      rcases mem_cons.1 hx with rfl | hx
      · exact hupdate _ _
      · rw [mem_singleton.1 hx]
        exact hbuild _ _ _ _
    refine stepped_of_replaces hr hexpanding ?_ (hblocks ▸ Nat.le_succ 1) ?_ (fun i hi => ?_)
      fun i x hi hreset => absurd (hnone x (mem_of_getElem? hi)) hreset
    · rw [flatMap_eq_nil_iff.2 hnone, append_nil, htest, h.resetsOf_eq, hbehind]
      simp only [filter_nil, length_nil]
      omega
    · rw [hblocks]
      exact mem_singleton_self b
    · rw [hblocks] at hi
      rw [mem_singleton.1 hi]
      exact Nat.lt_add_right _ hr.lt
  · obtain ⟨hexpanding, hr⟩ := h.expanding_join hf rfl hupdates hsize hg
    refine stepped_of_replaces hr hexpanding ?_ (hblocks ▸ le_refl 2) ?_ (fun i hi => ?_)
      fun i x hi hreset => ?_
    · rw [joinBlocks, List.flatMap_cons, List.flatMap_cons, List.flatMap_singleton, hupdate,
        hbuild, length_append, htest, h.resetsOf_eq]
      simp only [resetsOf, nil_append]
      omega
    · rw [hblocks]
      exact .head _
    · rw [hblocks] at hi
      rcases mem_cons.1 hi with rfl | hi
      · exact Nat.lt_add_right _ hr.lt
      · rw [mem_singleton.1 hi]
        exact Nat.add_lt_add_left (by decide : 2 < 3) _
    · rw [hblocks]
      rcases i with _ | _ | _ | i
      · exact absurd (Option.some.inj hi ▸ hupdate _ _) hreset
      · exact absurd (Option.some.inj hi ▸ hbuild _ _ _ _) hreset
      · exact .tail _ (mem_singleton_self _)
      · cases hi

end PairSite

/-- A step at a block: either there is no reset in it, or one less. -/
theorem expandFirst?_ok (pool : Pool) (cls : Classes) (variants : Variants) (hf : Expanding f)
    (hblock : f.block? b = some block) :
    (expandFirst? pool cls variants f b block = .ok none ∧ resetsOf block = []) ∨
      ∃ e, expandFirst? pool cls variants f b block = .ok (some e) ∧ Stepped f b e := by
  unfold expandFirst?
  cases hreset : firstReset? block.code with
  | none => exact .inl ⟨rfl, resetsOf_eq_nil_iff.2 (firstReset?_eq_none hreset)⟩
  | some reset =>
    obtain ⟨reuse, hreuse, h⟩ := exists_pairSite hf.valid.toWellFormed hf.paired hblock hreset
    right
    dsimp only
    rw [hreuse]
    dsimp only
    rw [hf.valid.id b block hblock]
    cases variants.lookup reset.token with
    | none => exact ⟨_, rfl, h.stepped_undone hf _⟩
    | some old =>
      obtain ⟨e, he, hstep⟩ := h.stepped_pair pool cls hf old
      refine ⟨e, ?_, hstep⟩
      dsimp only
      rw [he]
      rfl

-- ======== runs

/-- Whether every step keeps a property of the function and of what was done. -/
def StepKeeps (pool : Pool) (cls : Classes) (variants : Variants)
    (P : Func → ExpandStats → Prop) : Prop :=
  ∀ f b block e stats, Expanding f → f.block? b = some block →
    expandFirst? pool cls variants f b block = .ok (some e) → P f stats →
    P e.func (stats.add e.stats)

/-- With steps for the blocks that wait, and two for every reset, no pairs are
left, and what every step keeps holds at the end. -/
theorem expandWithin_ok {variants : Variants} {P : Func → ExpandStats → Prop}
    (hP : StepKeeps pool cls variants P) {steps : Nat}
    {waiting : List BlockId} {stats : ExpandStats} (hf : Expanding f) (hwaits : Waits f waiting)
    (hsteps : waiting.length + 2 * resetCount f ≤ steps) (hstart : P f stats) :
    ∃ r, expandWithin pool cls variants steps f stats waiting = .ok r ∧ Expanding r.1 ∧
      resetCount r.1 = 0 ∧ P r.1 r.2 := by
  induction steps generalizing f waiting stats with
  | zero =>
    cases waiting with
    | nil =>
      refine ⟨_, rfl, hf, ?_, hstart⟩
      dsimp only
      omega
    | cons b waiting => simp at hsteps
  | succ steps ih =>
    cases waiting with
    | nil =>
      -- no block has a reset, since none waits
      refine ⟨(f, stats), rfl, hf, ?_, hstart⟩
      rw [resetCount_eq, length_eq_zero_iff, flatMap_eq_nil_iff]
      intro x hx
      obtain ⟨i, hi⟩ := mem_iff_getElem?.1 (mem_toList_iff.1 hx)
      by_contra hreset
      exact absurd (hwaits.mem i x hi hreset) not_mem_nil
    | cons b waiting =>
      have hlt := hwaits.lt b (.head _)
      have hblock : f.block? b = some f.blocks[b] := getElem?_eq_getElem hlt
      unfold expandWithin
      rw [hblock]
      dsimp only
      rw [length_cons] at hsteps
      rcases expandFirst?_ok pool cls variants hf hblock with
        ⟨he, hnone⟩ | ⟨e, he, hstep⟩
      · rw [he]
        refine ih hf ⟨fun i hi => hwaits.lt i (mem_cons_of_mem b hi), fun i x hx hreset => ?_⟩
          (by omega) hstart
        rcases mem_cons.1 (hwaits.mem i x hx hreset) with rfl | hi
        · rw [hblock] at hx
          exact absurd (Option.some.inj hx ▸ hnone) hreset
        · exact hi
      · rw [he]
        refine ih hstep.expanding (hstep.waits hwaits) ?_ (hP f b _ e stats hf hblock he hstart)
        have hfewer := hstep.fewer
        have hlength := hstep.length
        rw [length_append, length_reverse]
        omega

/-- The known variants of reset values can be found, for all of them. -/
theorem variantsOf_ok (hf : Annotated pool f) : ∃ variants, variantsOf pool f = .ok variants ∧
    ∀ token v, .reset token v ∈ f.instrs → ∃ old, variants.lookup token = some old := by
  have hfind : ∀ block ∈ f.blocks.toList, ∀ p ∈ block.code.zipIdx,
      ∃ o, resetVariant? pool f block p.2 p.1 = .ok o ∧
        ∀ token v, p.1 = .reset token v → ∃ old, o = some (token, old) := by
    intro block hblock p hp
    obtain ⟨x, i⟩ := p
    have hx : block.code[i]? = some x := mem_zipIdx_iff_getElem?.1 hp
    cases x with
    | reset token v =>
      obtain ⟨old, hold⟩ := hf.known block (mem_toList_iff.1 hblock) i token v hx
      refine ⟨some (token, old), ?_, fun _ _ he => ⟨old, ?_⟩⟩
      · simp only [resetVariant?, hold]
        rfl
      · rw [(Instr.reset.inj he).1]
    | _ => exact ⟨none, rfl, fun _ _ he => by cases he⟩
  choose! found hfound hreset using hfind
  have hvariants : variantsOf pool f = .ok (f.blocks.toList.map fun block =>
      block.code.zipIdx.filterMap (found block)).flatten.reverse := by
    change ((f.blocks.toList.mapM fun b => b.code.zipIdx.filterMapM fun p =>
      resetVariant? pool f b p.2 p.1) >>= fun found => pure found.flatten.reverse) = _
    rw [mapM_ok_of_forall fun block hblock => filterMapM_ok (hfound block hblock)]
    rfl
  refine ⟨_, hvariants, fun token v hv => ?_⟩
  obtain ⟨block, hblock, hx⟩ := mem_flatMap.1 hv
  obtain ⟨i, hi⟩ := mem_iff_getElem?.1 hx
  obtain ⟨old, hold⟩ := hreset block hblock (_, i) (mem_zipIdx_iff_getElem?.2 hi) token v rfl
  refine Option.isSome_iff_exists.1 (lookup_isSome_iff.2 ⟨(token, old), ?_, beq_self_eq_true _⟩)
  exact mem_reverse.2 (mem_flatten.2 ⟨_, mem_map_of_mem hblock,
    mem_filterMap.2 ⟨_, mem_zipIdx_iff_getElem?.2 hi, hold⟩⟩)

/-- Expanding the pairs of a valid function succeeds, and no token is left. -/
theorem expand_ok (cls : Classes) (hf : Annotated pool f) {variants : Variants}
    (hvariants : variantsOf pool f = .ok variants) {P : Func → ExpandStats → Prop}
    (hP : StepKeeps pool cls variants P) (hstart : P f .zero) :
    ∃ r, expand pool cls f = .ok r ∧ Valid .expanded r.1 ∧ Anchored r.1 ∧ P r.1 r.2 := by
  have hexpanding : Expanding f := ⟨hf.valid, hf.paired, hf.anchored⟩
  have hid : ∀ i x, f.block? i = some x → x.id = i := hf.valid.id
  have hwaits : Waits f (f.blocks.toList.map (·.id)).reverse := by
    refine ⟨fun i hi => ?_, fun i x hx _ => ?_⟩
    · obtain ⟨x, hx, rfl⟩ := mem_map.1 (mem_reverse.1 hi)
      obtain ⟨j, hj⟩ := mem_iff_getElem?.1 (mem_toList_iff.1 hx)
      exact hid j x hj ▸ (Func.block_lt hj)
    · exact mem_reverse.2 (mem_map.2 ⟨x, mem_toList_iff.2 (mem_of_getElem? hx), hid i x hx⟩)
  obtain ⟨r, hr, hdone, hno, hkept⟩ := expandWithin_ok hP hexpanding hwaits le_rfl hstart
  refine ⟨r, ?_, hdone.expanded hno, hdone.anchored, hkept⟩
  unfold expand
  rw [hvariants]
  exact hr

end RefCount.Reuse
