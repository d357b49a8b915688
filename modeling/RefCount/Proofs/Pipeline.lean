/-
The analysis of a function that passes the check after lowering never fails, and
what every pass leaves passes the check of its stage. Counts are inserted so that
a release at the end of a loop is held by a use behind it (`Anchored`); cancelling
relies on this, so each pass in between keeps it. Marking calls changes nothing
that the check looks at.
-/
import Mathlib
import RefCount.Pipeline
import RefCount.Proofs.Count.Insert
import RefCount.Proofs.Reuse.Report
import RefCount.Proofs.Reuse.Worklist

namespace RefCount

open Ir List

-- ======== marked calls

namespace Ir.Func

variable {f : Func} {x y : Instr} {code : List Instr} {returned : Option Var} {stage : Stage}

/-- Instructions that the check does not tell apart. -/
structure CheckedAs (x y : Instr) : Prop where
  def_eq : y.def? = x.def?
  uses_eq : y.uses = x.uses
  staged_eq : staged? y = staged? x

theorem checkedAs_markCode (returned : Option Var) (code : List Instr) :
    List.Forall₂ CheckedAs code (markCode returned code) := by
  induction code using markCode.induct with
  | case1 => exact .nil
  | case2 => exact .cons ⟨rfl, rfl, rfl⟩ .nil
  | case3 dst func args tail rest hrest ih =>
    rw [markCode]
    · exact .cons ⟨rfl, rfl, rfl⟩ ih
    · exact hrest
  | case4 x rest hlast hcall ih =>
    rw [markCode]
    · exact .cons ⟨rfl, rfl, rfl⟩ ih
    · exact hlast
    · exact hcall

theorem supports_of_checkedAs {P : Var → Prop} {code code' : List Instr} {last : List Var}
    (h : List.Forall₂ CheckedAs code code') (hsup : Supports P code last) :
    Supports P code' last := by
  induction h generalizing P with
  | nil => exact hsup
  | cons hxy _ ih =>
    rw [Supports, hxy.uses_eq, hxy.def_eq]
    exact ⟨hsup.1, ih hsup.2⟩

theorem filterMap_of_checkedAs {code code' : List Instr}
    (h : List.Forall₂ CheckedAs code code') :
    code'.filterMap Instr.def? = code.filterMap Instr.def? := by
  induction h with
  | nil => rfl
  | cons hxy _ ih => rw [filterMap_cons, filterMap_cons, hxy.def_eq, ih]

/-- The block with its last call marked. -/
def markBlock (b : Block) : Block := { b with code := markCode (returned? b) b.code }

theorem alike_markBlock (b : Block) : b.Alike (markBlock b) :=
  ⟨rfl, rfl, filterMap_of_checkedAs (checkedAs_markCode _ _), rfl⟩

theorem markTailCalls_valid (hf : Valid stage f) : Valid stage f.markTailCalls := by
  have halike : f.Alike f.markTailCalls := by
    refine ⟨rfl, rfl, rfl, ?_⟩
    rw [markTailCalls, Array.toList_map]
    exact forall₂_map_right_iff.2 (forall₂_same.2 fun b _ => alike_markBlock b)
  have hmark : ∀ b' ∈ f.markTailCalls.blocks, ∃ b ∈ f.blocks, markBlock b = b' := fun b' hb' =>
    Array.mem_map.1 hb'
  have hfind : ∀ {b : Block} {y : Instr}, y ∈ (markBlock b).code →
      ∃ x ∈ b.code, CheckedAs x y :=
    fun hy => exists_of_forall₂ (checkedAs_markCode _ _).flip hy
  refine halike.valid hf (fun b' hb' y hy => ?_) (fun b' hb' v hv => ?_)
    fun i b b' hb hb' _ _ hsup => ?_
  · obtain ⟨b, hb, rfl⟩ := hmark b' hb'
    obtain ⟨x, hx, hxy⟩ := hfind hy
    have hstage := hf.staged b hb x hx
    rwa [checkStage, ← hxy.staged_eq] at hstage
  · obtain ⟨b, hb, rfl⟩ := hmark b' hb'
    refine hf.defined b hb v ?_
    rcases mem_append.1 hv with hv | hv
    · obtain ⟨y, hy, hv⟩ := mem_flatMap.1 hv
      obtain ⟨x, hx, hxy⟩ := hfind hy
      exact mem_append_left _ (mem_flatMap.2 ⟨x, hx, hxy.uses_eq ▸ hv⟩)
    · exact mem_append_right _ hv
  · obtain rfl : b' = markBlock b := by
      unfold block? markTailCalls at hb'
      rw [Array.getElem?_map, show f.blocks[i]? = some b from hb] at hb'
      exact (Option.some.inj hb').symm
    exact supports_of_checkedAs (checkedAs_markCode _ _) hsup

-- ======== texts

/-- The text of a valid function can be written. -/
theorem text_ok (hf : WellFormed f) (pool : Pool) : ∃ s, f.text pool = .ok s := by
  obtain ⟨blocks, hblocks⟩ : ∃ s, f.blocks.toList.mapM (Block.text pool f) = .ok s := by
    refine exists_mapM_ok fun b hb => ?_
    obtain ⟨params, hparams⟩ : ∃ s, b.params.mapM (blockParamText pool f) = .ok s := by
      refine exists_mapM_ok fun v hv => ?_
      obtain ⟨i, hi⟩ := Array.mem_iff_getElem?.1 (Array.mem_toList_iff.1 hb)
      obtain ⟨t, ht⟩ := Reuse.exists_type? hf
        (Func.mem_defs_of_block hi (mem_append_left _ hv))
      rw [blockParamText, ht]
      exact ⟨_, rfl⟩
    rw [Block.text, hparams]
    exact ⟨_, rfl⟩
  rw [text, hblocks]
  exact ⟨_, rfl⟩

end Ir.Func

-- ======== passes

namespace Pipeline

variable {f : Func}

/-- What the passes make of a function one after the other. -/
structure Passes (pool : Pool) (cls : Classes) (sigs : Signatures) (f : Func) where
  counted : Func
  paired : Func
  pairs : Nat
  report : Reuse.Report
  expanded : Func
  expand : Reuse.ExpandStats
  short : Func
  cancelled : Nat
  insert_eq : Count.insert f cls sigs = .ok counted
  annotate_eq : Reuse.annotate pool counted = .ok (paired, pairs)
  report_eq : Reuse.report pool paired = .ok report
  expand_eq : Reuse.expand pool cls paired = .ok (expanded, expand)
  eliminate_eq : Count.eliminate expanded = .ok (short, cancelled)

/-- Whether every function that the passes make passes the check of its
stage. -/
structure Passes.Checked {pool : Pool} {cls : Classes} {sigs : Signatures}
    (p : Passes pool cls sigs f) : Prop where
  counted : p.counted.check .counted = .ok ()
  paired : p.paired.check .counted = .ok ()
  expanded : p.expanded.check .expanded = .ok ()
  short : p.short.check .expanded = .ok ()
  marked : p.short.markTailCalls.check .expanded = .ok ()

theorem exists_passes (hf : Valid .lowered f) (pool : Pool) (cls : Classes) (sigs : Signatures) :
    ∃ p : Passes pool cls sigs f, p.Checked := by
  obtain ⟨c, l, -, -, -, -, hsolves, hinsert, hcounted⟩ := Count.insert_valid hf cls sigs
  have hanchored := Count.insertWith_anchored hf hsolves
  obtain ⟨⟨paired, pairs⟩, hannotate, hannotated, -⟩ :=
    Reuse.annotate_annotated pool hcounted hanchored
  obtain ⟨missed, hreport, -⟩ := Reuse.report_eq pool hannotated.valid
  obtain ⟨variants, hvariants, -⟩ := Reuse.variantsOf_ok hannotated
  obtain ⟨⟨expanded, stats⟩, hexpand, hexpanded, hstill, -⟩ := Reuse.expand_ok cls hannotated
    hvariants (P := fun _ _ => True) (fun _ _ _ _ _ _ _ _ _ => trivial) trivial
  obtain ⟨⟨short, cancelled⟩, heliminate, hthins⟩ :=
    Count.eliminate_thins hexpanded.toWellFormed hstill
  have hshort := hthins.valid hexpanded
  exact ⟨⟨_, paired, pairs, _, expanded, stats, short, cancelled, hinsert, hannotate,
    hreport, hexpand, heliminate⟩, check_ok_iff.2 hcounted.counted, check_ok_iff.2 hannotated.valid,
    check_ok_iff.2 hexpanded, check_ok_iff.2 hshort,
    check_ok_iff.2 (Func.markTailCalls_valid hshort)⟩

/-- The work on a function is what the passes make of it. -/
theorem work_eq {pool : Pool} {cls : Classes} {sigs : Signatures} {p : Passes pool cls sigs f}
    (hp : p.Checked) : work pool cls sigs f = .ok ⟨p.short.markTailCalls,
      .ok ⟨f.name, false, p.pairs, p.report, p.expand, p.cancelled⟩⟩ := by
  unfold work
  rw [p.insert_eq]
  simp only [p.annotate_eq, p.report_eq, hp.paired, p.expand_eq, p.eliminate_eq, hp.marked,
    bind, Except.bind]
  rfl

/-- With a cache or without, a function is not given up if the work on it has a
result. -/
theorem process_ok {pool : Pool} {cls : Classes} {sigs : Signatures} {w : Worked}
    {stats : FuncStats} (hf : WellFormed f) (hwork : work pool cls sigs f = .ok w)
    (hstats : w.stats = .ok stats) (version : String) (cache : Option Cache) :
    ∃ p r, process pool cls sigs version cache f = .ok p ∧ p.result = .ok r := by
  unfold process
  cases cache with
  | none =>
    rw [hwork]
    exact ⟨_, (w.left, stats), rfl, by simp [hstats, Except.map]⟩
  | some c =>
    obtain ⟨s, hs⟩ := Func.text_ok hf pool
    obtain ⟨k, hk⟩ : ∃ k, Cache.key pool f sigs version = .ok k := by
      rw [Cache.key, Cache.preimage, hs]
      exact ⟨_, rfl⟩
    rw [hk]
    dsimp only [bind, Except.bind]
    rcases c.find k with ⟨_ | e, c'⟩
    · rw [hwork]
      exact ⟨_, (w.left, stats), rfl, by simp [hstats, Except.map]⟩
    · exact ⟨_, _, rfl, rfl⟩

/-- A function that passes the check after lowering passes it after every pass,
and the analysis has a result for it. -/
theorem passes_checked_and_process_ok (hf : f.check .lowered = .ok ()) (pool : Pool)
    (cls : Classes) (sigs : Signatures) :
    (∃ p : Passes pool cls sigs f, p.Checked ∧
      work pool cls sigs f = .ok ⟨p.short.markTailCalls,
        .ok ⟨f.name, false, p.pairs, p.report, p.expand, p.cancelled⟩⟩) ∧
    ∀ version cache, ∃ p r, process pool cls sigs version cache f = .ok p ∧ p.result = .ok r := by
  have hvalid := check_ok_iff.1 hf
  obtain ⟨p, hp⟩ := exists_passes hvalid pool cls sigs
  exact ⟨⟨p, hp, work_eq hp⟩, process_ok hvalid.toWellFormed (work_eq hp) rfl⟩

/-- The built-in types and a record that holds a string. -/
def boxes : Pool :=
  { Pool.initial with types := Pool.initial.types.push (.record "Box" (some [⟨"s", .str⟩])) }

/-- Strings and boxes are references. -/
def boxClasses : Classes := .replicate 6 .scalar ++ .replicate 2 .definiteRef

/-- A loop that takes a box apart and builds it again in every round. -/
def reboxing : Func where
  name := "rebox"
  params := [⟨0, 7, .owned⟩]
  result := 7
  blocks := #[⟨0, [], [], some (.jump (some 1) [0])⟩,
    ⟨1, [1], [.project 2 1 0 0, .construct 3 7 0 [2], .lit 4 (.bool true)],
      some (.branch 4 (some 2) (some 3))⟩,
    ⟨2, [], [], some (.jump (some 1) [3])⟩, ⟨3, [], [], some (.ret 3)⟩]
  entry := 0
  types := #[7, 7, .str, 7, .bool]

/-- The loop passes all checks. -/
theorem reboxing_checked : reboxing.check .lowered = .ok () ∧
    (∃ p : Passes boxes boxClasses [("rebox", [.owned])] reboxing, p.Checked ∧
      work boxes boxClasses [("rebox", [.owned])] reboxing = .ok ⟨p.short.markTailCalls,
        .ok ⟨reboxing.name, false, p.pairs, p.report, p.expand, p.cancelled⟩⟩) ∧
    ∀ version cache, ∃ p r, process boxes boxClasses [("rebox", [.owned])] version cache reboxing =
      .ok p ∧ p.result = .ok r := by
  have hcheck : reboxing.check .lowered = .ok () := by decide +kernel
  exact ⟨hcheck, passes_checked_and_process_ok hcheck boxes boxClasses _⟩

end Pipeline

end RefCount
