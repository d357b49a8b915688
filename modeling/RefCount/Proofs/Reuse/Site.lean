/-
Taking pairs out. The first pair of a block is known with what stands before,
between and behind its two parts (`PairSite`). A function stays a valid function
with pairs when a block is replaced and the parts are such (`Expanding`); so it
does when a pair becomes a release and a construction again
(`PairSite.expanding_undone`): the token is gone, which only its reuse read.
-/
import Mathlib
import RefCount.Proofs.Reuse.Annotate

namespace RefCount.Reuse

open Ir RefCount.Count List

-- ======== pairs

/-- A pair in a block, with nothing open before it and between the two. -/
structure PairSite (f : Func) (b : BlockId) (block : Block) (reset : ResetAt) (reuse : ReuseAt) :
    Prop where
  here : f.block? b = some block
  code : block.code = reset.before ++ .reset reset.token reset.var ::
    (reuse.before ++ reuse.rebuild.reuse reset.token :: reuse.behind)
  plain : ∀ x ∈ reset.before, isPlain x = true
  between : opened? [] reuse.before = some []
  behind : opened? [] reuse.behind = some []

/-- The first reset of a block has its reuse. -/
theorem exists_pairSite {f : Func} {b : BlockId} {block : Block} {reset : ResetAt}
    (hf : WellFormed f) (hpaired : Paired f) (hblock : f.block? b = some block)
    (hreset : firstReset? block.code = some reset) :
    ∃ reuse, firstReuse? reset.token reset.behind = some reuse ∧
      PairSite f b block reset reuse := by
  obtain ⟨hcode, hno⟩ := firstReset?_eq_some hreset
  have hnested := hpaired.nested block (Array.mem_of_getElem? hblock)
  rw [hcode, opened?_append] at hnested
  obtain ⟨tokens, hbefore, hnested⟩ := Option.bind_eq_some_iff.1 hnested
  have hplain := isPlain_of_no_reset hbefore hno
  rw [opened?_of_isPlain hplain] at hbefore
  cases hbefore
  -- the token has one definition, so it is not reset again
  have hfree : ∀ v, .reset reset.token v ∉ reset.behind := by
    intro v hv
    have hnd := Func.nodup_block hf.nodup hblock
    rw [Block.defs, hcode, filterMap_append] at hnd
    have hnd' := (nodup_append.1 (nodup_append.1 hnd).2.1).2.1
    rw [filterMap_cons] at hnd'
    exact (nodup_cons.1 hnd').1 (mem_filterMap.2 ⟨_, hv, rfl⟩)
  obtain ⟨reuse, hreuse, hbehind, hbetween, hrest⟩ :=
    firstReuse?_of_opened [] hnested not_mem_nil hfree
  refine ⟨reuse, hreuse, hblock, ?_, hplain, hbetween, hrest⟩
  rw [hcode, ← hbehind]

namespace PairSite

variable {f : Func} {b : BlockId} {block : Block} {reset : ResetAt} {reuse : ReuseAt} {u : Var}
  {Q : Var → Prop}

section Reads

variable (h : PairSite f b block reset reuse)
include h

theorem mem : block ∈ f.blocks := Array.mem_of_getElem? h.here

theorem reset_mem : .reset reset.token reset.var ∈ block.code := by
  rw [h.code]
  simp

theorem reuse_mem : reuse.rebuild.reuse reset.token ∈ block.code := by
  rw [h.code]
  simp

theorem isToken : IsToken f reset.token := ⟨block, h.mem, reset.var, h.reset_mem⟩

/-- What a block with a pair defines. -/
theorem defs_eq : block.defs = block.params ++ (reset.before.filterMap Instr.def? ++ reset.token ::
    (reuse.before.filterMap Instr.def? ++
      reuse.rebuild.dst :: reuse.behind.filterMap Instr.def?)) := by
  rw [Block.defs, h.code]
  simp [Instr.def?, Rebuild.reuse]

theorem mem_code {x : Instr} (hx : x ∈ reset.before ++ reuse.before ++ reuse.behind) :
    x ∈ block.code := by
  rw [h.code]
  simp only [mem_append, mem_cons] at hx ⊢
  rcases hx with (hx | hx) | hx
  · exact .inl hx
  · exact .inr (.inr (.inl hx))
  · exact .inr (.inr (.inr (.inr hx)))

/-- The value that is reset. -/
theorem var_plain : reset.var ∈ plainReads block :=
  mem_append_left _ (mem_flatMap.2 ⟨_, h.reset_mem, mem_singleton_self _⟩)

theorem arg_plain {a : Var} (ha : a ∈ reuse.rebuild.args) : a ∈ plainReads block :=
  mem_append_left _ (mem_flatMap.2 ⟨_, h.reuse_mem, ha⟩)

/-- Nothing but the reuse reads the token. -/
theorem not_mem_uses (hf : WellFormed f) (hpaired : Paired f) {x : Instr}
    (hx : x ∈ reset.before ++ reuse.before ++ reuse.behind) : reset.token ∉ x.uses := by
  intro hread
  rcases mem_plainUses_or hread with hread | ⟨dst, type, variant, args, rfl⟩
  · exact hpaired.apart _ h.isToken block h.mem
      (mem_append_left _ (mem_flatMap.2 ⟨x, h.mem_code hx, hread⟩))
  · -- another reuse of the token would come with another reset of it
    have hdefs : reset.token ∉ reset.before.filterMap Instr.def? ++
        (reuse.before.filterMap Instr.def? ++ reuse.behind.filterMap Instr.def?) := by
      have hnd := Func.nodup_block hf.nodup h.here
      rw [h.defs_eq] at hnd
      have hnd' := nodup_middle.1 (nodup_append.1 hnd).2.1
      have hno := (nodup_cons.1 hnd').1
      simp only [mem_append, mem_cons, not_or] at hno ⊢
      exact ⟨hno.1, hno.2.1, hno.2.2.2⟩
    have hreset : ∃ v, .reset reset.token v ∈ reset.before ++ reuse.before ++ reuse.behind := by
      rcases mem_append.1 hx with hx | hx
      · rcases mem_append.1 hx with hx | hx
        · exact absurd (h.plain _ hx) Bool.false_ne_true
        · obtain ⟨v, hv⟩ := (mem_of_reuse h.between hx).resolve_left not_mem_nil
          exact ⟨v, by simp [hv]⟩
      · obtain ⟨v, hv⟩ := (mem_of_reuse h.behind hx).resolve_left not_mem_nil
        exact ⟨v, by simp [hv]⟩
    obtain ⟨v, hv⟩ := hreset
    refine hdefs ?_
    rw [← filterMap_append, ← filterMap_append, ← append_assoc]
    exact mem_filterMap.2 ⟨_, hv, rfl⟩

/-- What the parts of the block around the pair rest on. -/
theorem supports (hf : WellFormed f) (hpaired : Paired f)
    (hsup : Supports Q block.code block.termUses) : Supports Q (reset.before ++ reuse.before) [] ∧
      (Q reset.var ∨ reset.var ∈ reset.before.filterMap Instr.def?) ∧ (∀ a ∈ reuse.rebuild.args,
        Q a ∨ a ∈ (reset.before ++ reuse.before).filterMap Instr.def?) ∧
      Supports (fun u => (Q u ∨ u ∈ (reset.before ++ reuse.before).filterMap Instr.def?) ∨
        u = reuse.rebuild.dst) reuse.behind block.termUses := by
  have hapart := hpaired.apart _ h.isToken block h.mem
  have hplain : ∀ {u}, u ∈ plainReads block → u ≠ reset.token := fun hu heq => hapart (heq ▸ hu)
  have hunread : ∀ {u code}, code ⊆ reset.before ++ reuse.before ++ reuse.behind →
      u ∈ code.flatMap Instr.uses → u ≠ reset.token := by
    intro u code hsub hu heq
    obtain ⟨x, hx, hu⟩ := mem_flatMap.1 hu
    exact h.not_mem_uses hf hpaired (hsub hx) (heq ▸ hu)
  rw [h.code, supports_append] at hsup
  obtain ⟨hbefore, hvar, hsup⟩ := hsup
  rw [supports_append] at hsup
  obtain ⟨hbetween, hargs, hbehind⟩ := hsup
  have hdefs : ∀ {u}, (Q u ∨ u ∈ reset.before.filterMap Instr.def?) ∨
      u ∈ reuse.before.filterMap Instr.def? ↔
      Q u ∨ u ∈ (reset.before ++ reuse.before).filterMap Instr.def? := by
    intro u
    rw [filterMap_append, mem_append, or_assoc]
  -- nobody needs the token
  have hdrop : ∀ {u}, u ≠ reset.token →
      (((Q u ∨ u ∈ reset.before.filterMap Instr.def?) ∨ some reset.token = some u) ∨
        u ∈ reuse.before.filterMap Instr.def?) →
      Q u ∨ u ∈ (reset.before ++ reuse.before).filterMap Instr.def? := by
    rintro u hne ((hu | hu) | hu)
    · exact hdefs.1 (.inl hu)
    · exact absurd (Option.some.inj hu).symm hne
    · exact hdefs.1 (.inr hu)
  refine ⟨supports_append.2 ⟨hbefore, hbetween.mono_on fun u hu => ?_⟩, ?_, fun a ha => ?_, ?_⟩
  · rintro (hq | hq)
    · exact hq
    · rw [append_nil] at hu
      refine absurd (Option.some.inj hq).symm (hunread (fun x hx => ?_) hu)
      simp [hx]
  · exact hvar _ (mem_singleton_self _)
  · exact hdrop (hplain (h.arg_plain ha)) (hargs a (.tail _ ha))
  · refine hbehind.mono_on fun u hu hq => ?_
    have hne : u ≠ reset.token := by
      rcases mem_append.1 hu with hu | hu
      · exact hunread (fun x hx => by simp [hx]) hu
      · exact hplain (mem_append_right _ hu)
    rcases hq with hq | hq
    · exact .inl (hdrop hne hq)
    · exact .inr (Option.some.inj hq).symm

end Reads

end PairSite

-- ======== taking pairs out

section Replaces

variable {f g : Func} {b : BlockId} {block block' : Block} {new : List Block}
  (hr : Replaces f g b block block' new)
include hr

/-- Pairs stay pairs if the blocks that replace one hold no others and read
nothing else that is old. -/
theorem paired_of_replaces (hf : Valid .counted f) (hpaired : Paired f)
    (hnested : ∀ x ∈ block' :: new, opened? [] x.code = some [])
    (htokens : ∀ x ∈ block' :: new, ∀ token v, .reset token v ∈ x.code →
      .reset token v ∈ block.code)
    (hreads : ∀ x ∈ block' :: new, ∀ u ∈ plainReads x, u ∈ plainReads block ∨ f.types.size ≤ u) :
    Paired g := by
  have hblock := Array.mem_of_getElem? hr.here
  have htoken : ∀ {token}, IsToken g token → IsToken f token := by
    rintro token ⟨x, hx, v, hv⟩
    rcases hr.mem_cases hx with ⟨c, -, hc⟩ | hx
    · exact ⟨x, Array.mem_of_getElem? hc, v, hv⟩
    · exact ⟨block, hblock, v, htokens x hx token v hv⟩
  refine ⟨fun x hx => ?_, fun token ht x hx => ?_⟩
  · rcases hr.mem_cases hx with ⟨c, -, hc⟩ | hx
    · exact hpaired.nested x (Array.mem_of_getElem? hc)
    · exact hnested x hx
  · have ht' := htoken ht
    rcases hr.mem_cases hx with ⟨c, -, hc⟩ | hx
    · exact hpaired.apart token ht' x (Array.mem_of_getElem? hc)
    · intro hu
      rcases hreads x hx token hu with hu | hu
      · exact hpaired.apart token ht' block hblock hu
      · exact absurd (hf.bound token ht'.mem_defs) (not_lt.2 hu)

/-- What is used behind a block still is. -/
theorem usedAfter_of_replaces {x : Block} (x' : Block) {u : Var} (h : UsedAfter f x u)
    (hterm : x'.term = x.term) (hcovered : Covered u block.code → Covered u block'.code) :
    UsedAfter g x' u := by
  rcases h with hu | ⟨t, ht, target, htarget, hu⟩
  · exact .inl (by rwa [Block.termUses, hterm])
  · have ht' : t ∈ x'.successors := by rwa [Block.successors, hterm]
    by_cases htb : t = b
    · subst htb
      rw [hr.here] at htarget
      cases htarget
      exact .inr ⟨t, ht', block', hr.block?_here, hcovered hu⟩
    · exact .inr ⟨t, ht', target, hr.block?_old htb htarget, hu⟩

/-- What is counted up in loops is used later still if the new blocks are no
loops. -/
theorem anchored_of_replaces (hanchored : Anchored f)
    (hloops : ∀ i x, new[i]? = some x → f.blocks.size + i ∉ x.successors)
    (hself : b ∈ block'.successors → Secures (UsedAfter g block') block'.code)
    (hcovered : ∀ u, (∃ x ∈ f.blocks, .inc u ∈ x.code) → Covered u block.code →
      Covered u block'.code) : Anchored g := by
  intro i x hx hloop
  rcases hr.block_cases hx with ⟨rfl, rfl⟩ | ⟨-, hold⟩ | ⟨j, rfl, hj⟩
  · exact hself hloop
  · refine (hanchored i x hold hloop).mono fun u hu hused => ?_
    exact usedAfter_of_replaces hr _ hused rfl (hcovered u ⟨x, Array.mem_of_getElem? hold, hu⟩)
  · exact absurd hloop (hloops j x hj)

end Replaces

/-- A valid function with pairs that are to be taken out. -/
structure Expanding (f : Func) : Prop where
  valid : Valid .counted f
  paired : Paired f
  anchored : Anchored f

-- --------------------------------------------------------------- as it was

/-- The code with a release and a construction instead of a pair. -/
def undone (reset : ResetAt) (reuse : ReuseAt) : List Instr :=
  reset.before ++ .dec reset.var ::
    (reuse.before ++ reuse.rebuild.construct reuse.rebuild.dst :: reuse.behind)

namespace PairSite

variable {f : Func} {b : BlockId} {block : Block} {reset : ResetAt} {reuse : ReuseAt} {u : Var}

/-- The variables that the block defines but for the token. -/
def kept (block : Block) (reset : ResetAt) (reuse : ReuseAt) : List Var :=
  block.params ++ (reset.before ++ reuse.before).filterMap Instr.def? ++
    reuse.rebuild.dst :: reuse.behind.filterMap Instr.def?

variable (h : PairSite f b block reset reuse)
include h

/-- All but the token is kept. -/
theorem defs_perm : block.defs.Perm (reset.token :: kept block reset reuse) := by
  rw [h.defs_eq, kept, filterMap_append, ← append_assoc]
  refine perm_middle.trans (List.Perm.cons _ ?_)
  simp [append_assoc]

theorem nodup_kept (hf : WellFormed f) : (kept block reset reuse).Nodup := by
  have hnd := Func.nodup_block hf.nodup h.here
  exact (nodup_cons.1 (h.defs_perm.nodup_iff.1 hnd)).2

theorem mem_kept_of_mem_defs (hu : u ∈ block.defs) (hne : u ≠ reset.token) :
    u ∈ kept block reset reuse :=
  (mem_cons.1 (h.defs_perm.mem_iff.1 hu)).resolve_left hne

theorem mem_defs_of_mem_kept (hu : u ∈ kept block reset reuse) : u ∈ block.defs :=
  h.defs_perm.mem_iff.2 (.tail _ hu)

/-- What is read but for the token. -/
theorem ne_token (hf : WellFormed f) (hpaired : Paired f)
    (hu : u ∈ (reset.before ++ reuse.before ++ reuse.behind).flatMap Instr.uses ∨
      u ∈ plainReads block) : u ≠ reset.token := by
  rintro rfl
  rcases hu with hu | hu
  · obtain ⟨x, hx, hu⟩ := mem_flatMap.1 hu
    exact h.not_mem_uses hf hpaired hx hu
  · exact hpaired.apart _ h.isToken block h.mem hu

/-- What is read is defined. -/
theorem mem_defs_of_read (hf : Valid .counted f)
    (hu : u ∈ (reset.before ++ reuse.before ++ reuse.behind).flatMap Instr.uses ∨
      u ∈ plainReads block) : u ∈ f.defs := by
  refine hf.defined block h.mem u ?_
  rcases hu with hu | hu
  · obtain ⟨x, hx, hu⟩ := mem_flatMap.1 hu
    exact mem_append_left _ (mem_flatMap.2 ⟨x, h.mem_code hx, hu⟩)
  · exact plainReads_subset block hu

omit h in
theorem defs_undone : Block.defs { block with code := undone reset reuse } =
    kept block reset reuse := by
  unfold Block.defs undone kept Rebuild.construct
  dsimp only
  rw [filterMap_append, filterMap_cons_none rfl, filterMap_append, filterMap_cons, filterMap_append]
  simp only [append_assoc]
  rfl

/-- A block with a pair that is undone takes its place. -/
theorem replaces_undone (hf : WellFormed f) : Replaces f (withCode f b (undone reset reuse)) b block
      { block with code := undone reset reuse } [] where
  params := rfl
  entry := rfl
  types := ⟨[], by simp [withCode, Func.modifyBlock]⟩
  here := h.here
  blocks := by
    rw [append_nil, withCode, Replaces.toList_modifyBlock h.here]
  id := rfl
  blockParams := rfl
  ids i nb hi := by cases hi
  term nb hnb := by
    rw [mem_singleton.1 hnb]
    exact hf.term block h.mem
  edge nb hnb t ht := by
    rw [mem_singleton.1 hnb] at ht ⊢
    exact .inl ⟨ht, fun target hfits => hfits⟩
  nodup := by
    rw [flatMap_nil, append_nil, defs_undone]
    exact h.nodup_kept hf
  bound v hv := by
    rw [flatMap_nil, append_nil, defs_undone] at hv
    exact .inl (h.mem_defs_of_mem_kept hv)

omit h in
/-- A pair that is undone is a release and a construction. -/
theorem mem_undone {x : Instr} (hx : x ∈ undone reset reuse) :
    x ∈ reset.before ++ reuse.before ++ reuse.behind ∨ x = .dec reset.var ∨
      x = reuse.rebuild.construct reuse.rebuild.dst := by
  simp only [undone, mem_append, mem_cons] at hx ⊢
  rcases hx with hx | hx | hx | hx | hx
  · exact .inl (.inl (.inl hx))
  · exact .inr (.inl hx)
  · exact .inl (.inl (.inr hx))
  · exact .inr (.inr hx)
  · exact .inl (.inr hx)

/-- The other pairs of the block are still nested. -/
theorem nested_undone : opened? [] (undone reset reuse) = some [] := by
  rw [undone, opened?_append, opened?_of_isPlain h.plain, Option.bind_some, opened?_cons,
    opens?_of_isPlain rfl, Option.bind_some, opened?_append, h.between, Option.bind_some,
    opened?_cons, Rebuild.construct, opens?_of_isPlain rfl]
  exact h.behind

/-- Instructions become others that use the same but for the token, release no
more and count no more. -/
theorem forall₂_undone (hf : WellFormed f) (hpaired : Paired f) :
    Forall₂ (fun x y => (∀ u, u ≠ reset.token → Holds u x → Holds u y) ∧
      (∀ u, Frees u y → Frees u x) ∧ ∀ u, y = .inc u → x = .inc u ∧ u ≠ reset.token)
      block.code (undone reset reuse) := by
  have hrefl : ∀ code ⊆ reset.before ++ reuse.before ++ reuse.behind,
      Forall₂ (fun x y => (∀ u, u ≠ reset.token → Holds u x → Holds u y) ∧
        (∀ u, Frees u y → Frees u x) ∧ ∀ u, y = .inc u → x = .inc u ∧ u ≠ reset.token)
        code code := by
    intro code hsub
    refine forall₂_same.2 fun x hx => ⟨fun _ _ hu => hu, fun _ hu => hu, ?_⟩
    rintro u rfl
    refine ⟨rfl, ?_⟩
    rintro rfl
    exact h.not_mem_uses hf hpaired (hsub hx) (mem_singleton_self _)
  rw [h.code, undone]
  refine rel_append (hrefl _ fun x hx => by simp [hx])
    (.cons ⟨fun u hne hu => ?_, fun u hu => ?_, fun u hu => (by cases hu)⟩
      (rel_append (hrefl _ fun x hx => by simp [hx])
        (.cons ⟨fun u hne hu => ?_, fun u hu => ?_, fun u hu => (by cases hu)⟩
          (hrefl _ fun x hx => by simp [hx]))))
  · exact absurd (by rw [mem_singleton.1 hu.1]) (hu.2.2 reset.token)
  · rcases hu with hu | ⟨token, hu⟩
    · exact .inr ⟨reset.token, by rw [Instr.dec.inj hu]⟩
    · cases hu
  · exact ⟨(mem_cons.1 hu.1).resolve_left hne, rfl, fun token he => (by cases he)⟩
  · rcases hu with hu | ⟨token, hu⟩
    · cases hu
    · cases hu

/-- The block still uses a variable before it releases it. -/
theorem covered_undone (hf : Expanding f) (hu : ∃ x ∈ f.blocks, .inc u ∈ x.code)
    (hcovered : Covered u block.code) : Covered u (undone reset reuse) := by
  have hne : u ≠ reset.token := by
    rintro rfl
    obtain ⟨x, hx, hinc⟩ := hu
    exact hf.paired.apart _ h.isToken x hx
      (mem_append_left _ (mem_flatMap.2 ⟨_, hinc, mem_singleton_self _⟩))
  exact hcovered.replace ((h.forall₂_undone hf.valid.toWellFormed hf.paired).imp
    fun x y hxy => ⟨hxy.1 u hne, hxy.2.1 u⟩)

/-- In a block that leads to itself, what is counted up is still used behind. -/
theorem secures_undone (hf : Expanding f) (hloop : b ∈ block.successors) :
    Secures (UsedAfter (withCode f b (undone reset reuse))
      { block with code := undone reset reuse }) (undone reset reuse) := by
  have hsecures := (hf.anchored b block h.here hloop).mono fun u hu hused =>
    usedAfter_of_replaces (h.replaces_undone hf.valid.toWellFormed) ({ block with
      code := undone reset reuse }) hused rfl (h.covered_undone hf ⟨block, h.mem, hu⟩)
  exact hsecures.replace ((h.forall₂_undone hf.valid.toWellFormed hf.paired).imp
    fun x y hxy => ⟨hxy.1, hxy.2.2⟩)

/-- Turning a pair back into a release and a construction. -/
theorem expanding_undone (hf : Expanding f) : Expanding (withCode f b (undone reset reuse)) := by
  have hwell := hf.valid.toWellFormed
  have hr := h.replaces_undone hwell
  have huses : ∀ x ∈ undone reset reuse, ∀ u ∈ x.uses,
      u ∈ (reset.before ++ reuse.before ++ reuse.behind).flatMap Instr.uses ∨
        u ∈ plainReads block := by
    intro x hx u hu
    rcases mem_undone hx with hx | rfl | rfl
    · exact .inl (mem_flatMap.2 ⟨x, hx, hu⟩)
    · rw [mem_singleton.1 hu]
      exact .inr h.var_plain
    · exact .inr (h.arg_plain hu)
  have hreads : ∀ u, u ∈ Block.reads { block with code := undone reset reuse } →
      u ∈ (reset.before ++ reuse.before ++ reuse.behind).flatMap Instr.uses ∨
        u ∈ plainReads block := by
    intro u hu
    rcases mem_append.1 hu with hu | hu
    · obtain ⟨x, hx, hu⟩ := mem_flatMap.1 hu
      exact huses x hx u hu
    · exact .inr (mem_append_right _ hu)
  have hkept : ∀ v ∈ block.defs, v ≠ reset.token →
      v ∈ Block.defs { block with code := undone reset reuse } := by
    intro v hv hne
    rw [defs_undone]
    exact h.mem_kept_of_mem_defs hv hne
  refine ⟨?_, ?_, ?_⟩
  · refine hr.valid (· = reset.token) (fun c x hne hc v hv heq => ?_)
      (fun x hx _ _ _ v hv hne => .inl (hkept v hv hne)) (fun hb => ?_)
      (fun _ x hx => nomatch hx) hf.valid (fun x _ y _ => checkStage_counted x.id y)
      (fun v hv hne => ⟨_, mem_singleton_self _, hkept v hv hne⟩) fun x hx v hv => ?_
    · exact hf.paired.not_read_elsewhere hwell h.here h.reset_mem hne hc (heq ▸ hv)
    · obtain ⟨hparts, hvar, hargs, hbehind⟩ :=
        h.supports hwell hf.paired (hf.valid.supported b block hb h.here)
      have hmiss : ∀ u, ¬f.Misses u b → ¬f.Misses u b ∧ u ≠ reset.token := by
        rintro u hu
        refine ⟨hu, ?_⟩
        rintro rfl
        exact hu (Func.misses_of_mem_defs hwell.nodup hb h.here (mem_defs_of_reset h.reset_mem))
      obtain ⟨hbefore, hbetween⟩ := supports_append.1 hparts
      refine Supports.mono (supports_append.2 ⟨hbefore, ?_, supports_append.2 ⟨?_, ?_, ?_⟩⟩)
        fun u => Or.imp_left (hmiss u)
      · intro u hu
        rw [mem_singleton.1 hu]
        exact hvar
      · exact hbetween.mono fun u => .inl
      · intro a ha
        rcases hargs a ha with ha | ha
        · exact .inl (.inl (.inl ha))
        · rw [filterMap_append, mem_append] at ha
          exact ha.elim (fun ha => .inl (.inl (.inr ha))) .inr
      · refine hbehind.mono ?_
        rintro u ((hu | hu) | rfl)
        · exact .inl (.inl (.inl (.inl hu)))
        · rw [filterMap_append, mem_append] at hu
          exact hu.elim (fun hu => .inl (.inl (.inl (.inr hu)))) fun hu => .inl (.inr hu)
        · exact .inr rfl
    · rw [mem_singleton.1 hx] at hv
      have hv' := hreads v hv
      exact .inl ⟨h.mem_defs_of_read hf.valid hv', h.ne_token hwell hf.paired hv'⟩
  · refine paired_of_replaces hr hf.valid hf.paired (fun x hx => ?_) (fun x hx token v hv => ?_)
      fun x hx u hu => ?_
    · rw [mem_singleton.1 hx]
      exact h.nested_undone
    · rw [mem_singleton.1 hx] at hv
      rcases mem_undone hv with hv | he | he
      · exact h.mem_code hv
      · cases he
      · cases he
    · rw [mem_singleton.1 hx] at hu
      refine .inl ?_
      rcases mem_append.1 hu with hu | hu
      · obtain ⟨x, hx, hu⟩ := mem_flatMap.1 hu
        rcases mem_undone hx with hx | rfl | rfl
        · exact mem_append_left _ (mem_flatMap.2 ⟨x, h.mem_code hx, hu⟩)
        · rw [mem_singleton.1 hu]
          exact h.var_plain
        · exact h.arg_plain hu
      · exact mem_append_right _ hu
  · exact anchored_of_replaces hr hf.anchored (fun i x hi => (by cases hi))
      (fun hloop => h.secures_undone hf hloop) fun u hu => h.covered_undone hf hu

end PairSite

end RefCount.Reuse
