/-
Inserting counts into a valid function succeeds and gives a valid function:
whatever is counted has its value there. Counts around an instruction are of
its operands and of what it defines; counts at the start of a block are of its
parameters; and what is released on an edge is live at its start, which means
that some way from there uses it, so that all ways to there define it.
-/
import Mathlib
import RefCount.Proofs.Borrow.Roots
import RefCount.Proofs.Count.Anchor
import RefCount.Proofs.Count.Edges
import RefCount.Proofs.Ir.Alike
import RefCount.Proofs.Liveness

namespace RefCount

open Ir List Liveness Transfer

-- ======== live

namespace Liveness

variable {f : Func} {track : Var → Bool} {stage : Stage} {b : BlockId} {block : Block} {v : Var}
  {P : Var → Prop} {t : Transfer}

/-- What a block defines and is tracked. -/
theorem kill_ofBlock :
    (ofBlock track block).kill.contains v = true ↔ track v = true ∧ v ∈ block.defs := by
  have huses : ∀ (us : List Var) (t : Transfer),
      (us.foldl (useBefore track) t).kill = t.kill := by
    intro us
    induction us with
    | nil => exact fun t => rfl
    | cons u us ih =>
      intro t
      rw [foldl_cons, ih]
      unfold useBefore
      split
      · rfl
      · rfl
  have hdef : ∀ (u : Var) (t : Transfer), (t.defBefore track u).kill.contains v = true ↔
      (track v = true ∧ v = u) ∨ t.kill.contains v = true := by
    intro u t
    rw [defBefore, apply_ite Transfer.kill]
    exact BitSet.contains_ite_insert
  have hdefs : ∀ (us : List Var) (t : Transfer),
      (us.foldl (defBefore track) t).kill.contains v = true ↔
        (track v = true ∧ v ∈ us) ∨ t.kill.contains v = true := by
    intro us
    induction us with
    | nil => intro t; simp
    | cons u us ih =>
      intro t
      rw [foldl_cons, ih, hdef, mem_cons, and_or_left, or_assoc, or_left_comm]
  have hcode : ∀ (code : List Instr) (t : Transfer),
      (code.foldr (instrBefore track) t).kill.contains v = true ↔
        (track v = true ∧ v ∈ code.filterMap Instr.def?) ∨ t.kill.contains v = true := by
    intro code t
    induction code with
    | nil => simp
    | cons x code ih =>
      rw [foldr_cons, instrBefore, huses, filterMap_cons]
      cases x.def? with
      | none => exact ih
      | some u => rw [hdef, ih, mem_cons, and_or_left, or_assoc]
  unfold ofBlock
  rw [hdefs, hcode, huses, BitSet.contains_empty, Block.defs, mem_append, and_or_left]
  simp

/-- What code uses before it defines it is there before. -/
theorem supplied_of_passes {code : List Instr} {last : List Var} (hv : track v = true)
    (h : Supports P code last) (hpass : Passes (code.foldr (instrBefore track)
      (last.foldl (useBefore track) ⟨.empty, .empty⟩)) (fun _ => False) v) : P v := by
  induction code generalizing P with
  | nil =>
    rcases passes_foldl_useBefore.1 hpass with ⟨-, hm⟩ | hm | ⟨hm, -⟩
    · exact h v hm
    · rw [BitSet.contains_empty] at hm
      cases hm
    · exact hm.elim
  | cons x code ih =>
    rw [foldr_cons] at hpass
    rcases passes_instrBefore.1 hpass with ⟨-, hm⟩ | ⟨hdef, hm⟩
    · exact h.1 v hm
    · exact (ih h.2 hm).resolve_right fun hd => hdef ⟨hv, hd⟩

/-- What is live at the start of a block that can be reached is supplied to
it. -/
theorem supplied_of_live (hf : f.AllSupported) (h : Live f track b v) (hb : f.Reachable b) :
    ¬f.Misses v b := by
  have hclaims := Func.claims_supplied f
  induction h with
  | @use b block v hblock hgen =>
    have htrack := track_of_gen hgen
    have hpass : Passes (ofBlock track block) (fun _ => False) v := .inl hgen
    unfold ofBlock at hpass
    obtain ⟨hparam, hpass⟩ := passes_foldl_defBefore.1 hpass
    exact (supplied_of_passes htrack (hf b block hb hblock) hpass).resolve_right
      fun hp => hparam ⟨htrack, hp⟩
  | @pass b t block v hblock hkill ht hlive ih =>
    have hsupply := ih (.edge hb (Func.successors_eq hblock ▸ ht))
    refine (hclaims.edge b block t v hb hblock ht hsupply).resolve_right fun hd => ?_
    rw [kill_ofBlock.2 ⟨hlive.isTracked, hd⟩] at hkill
    cases hkill

theorem mem_reads_of_live (h : Live f track b v) : ∃ block ∈ f.blocks, v ∈ block.reads := by
  induction h with
  | @use b block v hblock hgen =>
    refine ⟨block, Array.mem_of_getElem? hblock, ?_⟩
    have htrack := track_of_gen hgen
    have hpass : Passes (ofBlock track block) (fun _ => False) v := .inl hgen
    unfold ofBlock at hpass
    exact supplied_of_passes (P := (· ∈ block.reads)) htrack
      (supports_of_forall fun v hv => hv) (passes_foldl_defBefore.1 hpass).2
  | pass _ _ _ _ ih => exact ih

end Liveness

namespace Count

variable {c : Facts} {P Q : Var → Prop} {cs code : List Instr} {last : List Var} {x : Instr}
  {v : Var}
variable {t : Option Term} {live out : BitSet} {b : BlockId}

-- ======== blocks

theorem mem_usages {ops : List (Var × Bool)} {u : Usage} (h : u ∈ usages ops) :
    u.var ∈ ops.map Prod.fst := by
  have hadd : ∀ (us : List Usage) (v : Var) (consumes : Bool) (u : Usage),
      u ∈ addUse us v consumes → u.var = v ∨ ∃ w ∈ us, w.var = u.var := by
    intro us v consumes
    induction us with
    | nil =>
      intro u hu
      rw [addUse, mem_singleton] at hu
      rw [hu]
      exact .inl (by cases consumes <;> rfl)
    | cons w us ih =>
      intro u hu
      rw [addUse] at hu
      split at hu
      · next hw =>
        rcases mem_cons.1 hu with rfl | hu
        · exact .inl (by cases consumes <;> exact hw)
        · exact .inr ⟨u, mem_cons_of_mem w hu, rfl⟩
      · rcases mem_cons.1 hu with rfl | hu
        · exact .inr ⟨u, .head _, rfl⟩
        · refine (ih u hu).imp id ?_
          rintro ⟨w', hw', heq⟩
          exact ⟨w', mem_cons_of_mem w hw', heq⟩
  have hfold : ∀ (ops : List (Var × Bool)) (us : List Usage),
      u ∈ ops.foldl (fun us (x : Var × Bool) => addUse us x.1 x.2) us →
      u.var ∈ ops.map Prod.fst ∨ ∃ w ∈ us, w.var = u.var := by
    intro ops
    induction ops with
    | nil => exact fun us h => .inr ⟨u, h, rfl⟩
    | cons op ops ih =>
      intro us h
      rcases ih _ h with h | ⟨w, hw, heq⟩
      · exact .inl (.tail _ h)
      · rcases hadd us op.1 op.2 w hw with h | ⟨w', hw', heq'⟩
        · refine .inl ?_
          rw [← heq, h]
          exact .head _
        · exact .inr ⟨w', hw', heq'.trans heq⟩
  refine (hfold ops [] h).resolve_right ?_
  rintro ⟨w, hw, -⟩
  cases hw

theorem map_fst_pairs (vs : List Var) (consumes : Bool) :
    (vs.map fun v => (v, consumes)).map Prod.fst = vs := by
  rw [map_map]
  exact map_id'' (fun _ => rfl) vs

/-- Operands are what an instruction reads. -/
theorem map_fst_operands : (operands c x).map Prod.fst = x.uses := by
  cases x with
  | callClosure dst callee args => exact congrArg (callee :: ·) (map_fst_pairs args true)
  | call dst func args tail =>
    rw [operands, map_map]
    exact zipIdx_map_fst 0 args
  | move dst src => rfl
  | construct | closure => exact map_fst_pairs _ true
  | _ => exact map_fst_pairs _ false

theorem map_fst_termOperands : (termOperands t).map Prod.fst = (t.map Term.uses).getD [] := by
  cases t with
  | none => rfl
  | some t =>
    cases t with
    | jump t args => exact map_fst_pairs args true
    | _ => rfl

/-- The counts around an instruction are of its operands: up before and down
after. -/
theorem aroundUses_counts {us : List Usage} :
    (∀ y ∈ (aroundUses c live us).before, ∃ u ∈ us, y = .inc u.var) ∧
      ∀ y ∈ (aroundUses c live us).after, ∃ u ∈ us, y = .dec u.var := by
  have hone : ∀ u isLive, (∀ y ∈ (aroundUse c u isLive).before, y = .inc u.var) ∧
      ∀ y ∈ (aroundUse c u isLive).after, y = .dec u.var := by
    intro u isLive
    unfold aroundUse
    dsimp only
    split
    · split
      · exact ⟨fun y hy => eq_of_mem_replicate hy, fun y hy => nomatch hy⟩
      · split
        · exact ⟨fun y hy => absurd hy not_mem_nil, fun y hy => mem_singleton.1 hy⟩
        · split
          · exact ⟨fun y hy => eq_of_mem_replicate hy,
              fun y hy => nomatch hy⟩
          · exact ⟨fun y hy => eq_of_mem_replicate hy, fun y hy => mem_singleton.1 hy⟩
    · split
      · exact ⟨fun y hy => eq_of_mem_replicate hy, fun y hy => nomatch hy⟩
      · exact ⟨fun y hy => absurd hy not_mem_nil, fun y hy => absurd hy not_mem_nil⟩
  unfold aroundUses
  refine ⟨fun y hy => ?_, fun y hy => ?_⟩
  · obtain ⟨around, haround, hy⟩ := mem_flatMap.1 hy
    obtain ⟨u, hu, rfl⟩ := mem_map.1 haround
    exact ⟨u, hu, (hone u _).1 y hy⟩
  · obtain ⟨around, haround, hy⟩ := mem_flatMap.1 hy
    obtain ⟨u, hu, rfl⟩ := mem_map.1 haround
    exact ⟨u, hu, (hone u _).2 y hy⟩

/-- What is counted after a definition. -/
theorem mem_afterDef {d : Var} {isLive : Bool} {y : Instr} (h : y ∈ afterDef c x d isLive) :
    (y = .inc d ∧ isLive = true) ∨ y = .dec d ∧ isLive = false := by
  obtain ⟨isPart, hpart⟩ : ∃ isPart : Bool, afterDef c x d isLive =
      if isLive then (if isPart then [.inc d] else []) else (if isPart then [] else [.dec d]) :=
    ⟨_, rfl⟩
  rw [hpart] at h
  cases isLive with
  | true =>
    cases isPart with
    | true => exact .inl ⟨mem_singleton.1 h, rfl⟩
    | false => cases h
  | false =>
    cases isPart with
    | true => cases h
    | false => exact .inr ⟨mem_singleton.1 h, rfl⟩

/-- What becomes of an instruction: its operands are counted up before it; what
it defines is counted up if it is a live part and down if it is not live, and
its operands are counted down after it. -/
theorem consInstr_code (c : Facts) (x : Instr) (s : Suffix) :
    ∃ before after, (consInstr c x s).code = before ++ x :: after ++ s.code ∧
      (∀ y ∈ before, ∃ v ∈ x.uses, y = .inc v) ∧
      ∀ y ∈ after, (∃ v ∈ x.uses, y = .dec v) ∨ ∃ d, x.def? = some d ∧
        ((y = .inc d ∧ s.live.contains d = true) ∨ y = .dec d ∧ s.live.contains d = false) := by
  have huses : ∀ {u : Usage}, u ∈ usages (operands c x) → u.var ∈ x.uses := by
    intro u hu
    rw [← map_fst_operands (c := c)]
    exact mem_usages hu
  unfold consInstr
  dsimp only
  refine ⟨_, _, rfl, fun y hy => ?_, fun y hy => ?_⟩
  · obtain ⟨u, hu, rfl⟩ := aroundUses_counts.1 y hy
    exact ⟨u.var, huses hu, rfl⟩
  · rcases mem_append.1 hy with hy | hy
    · right
      cases hd : x.def?.filter c.isTracked with
      | none =>
        rw [hd] at hy
        cases hy
      | some d =>
        rw [hd] at hy
        refine ⟨d, (Option.filter_eq_some_iff.1 hd).1, ?_⟩
        exact mem_afterDef hy
    · obtain ⟨u, hu, rfl⟩ := aroundUses_counts.2 y hy
      exact .inl ⟨u.var, huses hu, rfl⟩

/-- Before the terminator its operands are counted up. -/
theorem termSuffix_code (c : Facts) (out : BitSet) (t : Option Term) :
    ∀ y ∈ (termSuffix c out t).code, ∃ v ∈ (t.map Term.uses).getD [], y = .inc v := by
  intro y hy
  obtain ⟨u, hu, rfl⟩ := aroundUses_counts.1 y hy
  refine ⟨u.var, ?_, rfl⟩
  rw [← map_fst_termOperands]
  exact mem_usages hu

/-- Counted code defines what the code does and is supported by the same. -/
theorem countCode_spec (c : Facts) (out : BitSet) (t : Option Term) (code : List Instr) :
    (code.foldr (consInstr c) (termSuffix c out t)).code.filterMap Instr.def? =
        code.filterMap Instr.def? ∧
      (∀ y ∈ (code.foldr (consInstr c) (termSuffix c out t)).code, y ∈ code ∨
        ∃ v, (v ∈ code.flatMap Instr.uses ++ (t.map Term.uses).getD [] ∨
          v ∈ code.filterMap Instr.def?) ∧ (y = .inc v ∨ y = .dec v)) ∧
      ∀ P : Var → Prop, Supports P code ((t.map Term.uses).getD []) →
        Supports P (code.foldr (consInstr c) (termSuffix c out t)).code
          ((t.map Term.uses).getD []) := by
  induction code with
  | nil =>
    have hcounts : ∀ P : Var → Prop, (∀ v ∈ (t.map Term.uses).getD [], P v) →
        CountsOf P (termSuffix c out t).code := by
      intro P hP y hy
      obtain ⟨v, hv, rfl⟩ := termSuffix_code c out t y hy
      exact ⟨v, hP v hv, .inl rfl⟩
    refine ⟨(hcounts (· ∈ (t.map Term.uses).getD []) fun v hv => hv).filterMap_def,
      fun y hy => ?_, fun P hP => ?_⟩
    · obtain ⟨v, hv, rfl⟩ := termSuffix_code c out t y hy
      exact .inr ⟨v, .inl (by simpa using hv), .inl rfl⟩
    · have := supports_counts (hcounts P hP) (show Supports P [] _ from hP)
      rwa [append_nil] at this
  | cons x code ih =>
    obtain ⟨ihdefs, ihmem, ihsup⟩ := ih
    rw [foldr_cons]
    obtain ⟨before, after, hcode, hbefore, hafter⟩ := consInstr_code c x
      (code.foldr (consInstr c) (termSuffix c out t))
    rw [hcode]
    have hb : ∀ P : Var → Prop, (∀ v ∈ x.uses, P v) → CountsOf P before := by
      intro P hP y hy
      obtain ⟨v, hv, rfl⟩ := hbefore y hy
      exact ⟨v, hP v hv, .inl rfl⟩
    have ha : ∀ P : Var → Prop, (∀ v ∈ x.uses, P v) →
        CountsOf (fun v => P v ∨ x.def? = some v) after := by
      intro P hP y hy
      rcases hafter y hy with ⟨v, hv, rfl⟩ | ⟨d, hd, ⟨rfl, -⟩ | ⟨rfl, -⟩⟩
      · exact ⟨v, .inl (hP v hv), .inr rfl⟩
      · exact ⟨d, .inr hd, .inl rfl⟩
      · exact ⟨d, .inr hd, .inr rfl⟩
    refine ⟨?_, fun y hy => ?_, fun P hP => ?_⟩
    · rw [append_assoc, filterMap_append,
        (hb (· ∈ x.uses) fun v hv => hv).filterMap_def, nil_append, cons_append,
        filterMap_cons, filterMap_append,
        (ha (· ∈ x.uses) fun v hv => hv).filterMap_def, nil_append, ihdefs,
        filterMap_cons]
    · have hmem : ∀ {v}, v ∈ x.uses → v ∈ (x :: code).flatMap Instr.uses ++
          (t.map Term.uses).getD [] := by
        intro v hv
        exact mem_append_left _ (mem_flatMap.2 ⟨x, .head _, hv⟩)
      rcases mem_append.1 hy with hy | hy
      · rcases mem_append.1 hy with hy | hy
        · obtain ⟨v, hv, rfl⟩ := hbefore y hy
          exact .inr ⟨v, .inl (hmem hv), .inl rfl⟩
        · rcases mem_cons.1 hy with rfl | hy
          · exact .inl (.head _)
          · rcases hafter y hy with ⟨v, hv, rfl⟩ | ⟨d, hd, hy⟩
            · exact .inr ⟨v, .inl (hmem hv), .inr rfl⟩
            · exact .inr ⟨d, .inr (mem_filterMap.2 ⟨x, .head _, hd⟩), hy.imp And.left And.left⟩
      · rcases ihmem y hy with hy | ⟨v, hv, hy⟩
        · exact .inl (mem_cons_of_mem x hy)
        · refine .inr ⟨v, hv.imp (fun hv => ?_) (fun hv => ?_), hy⟩
          · rw [flatMap_cons, append_assoc]
            exact mem_append_right _ hv
          · obtain ⟨z, hz, hd⟩ := mem_filterMap.1 hv
            exact mem_filterMap.2 ⟨z, mem_cons_of_mem x hz, hd⟩
    · rw [append_assoc]
      refine supports_counts (hb P hP.1) ⟨hP.1, ?_⟩
      exact supports_counts (ha P hP.1) (ihsup _ hP.2)

-- ------------------------------------------------------- what is live where

/-- What is live in front of uses. -/
theorem contains_useAll {vs : List Var} : (useAll c live vs).contains v = true ↔
      (c.isTracked v = true ∧ v ∈ vs) ∨ live.contains v = true := by
  unfold useAll
  induction vs generalizing live with
  | nil => simp
  | cons u vs ih =>
    rw [foldl_cons, ih, mem_cons, BitSet.contains_ite_insert, and_or_left, or_assoc, or_left_comm]

/-- What is live in front of an instruction. -/
theorem live_consInstr {s : Suffix} : (consInstr c x s).live.contains v = true ↔
    (c.isTracked v = true ∧ v ∈ x.uses) ∨
      ¬(c.isTracked v = true ∧ x.def? = some v) ∧ s.live.contains v = true := by
  unfold consInstr
  dsimp only
  rw [contains_useAll]
  refine or_congr_right ?_
  cases hd : x.def?.filter c.isTracked with
  | none =>
    rw [Option.filter_eq_none_iff] at hd
    refine ⟨fun h => ⟨fun hv => hd v hv.2 hv.1, h⟩, And.right⟩
  | some d =>
    obtain ⟨hdef, htrack⟩ := Option.filter_eq_some_iff.1 hd
    rw [hdef]
    by_cases hvd : v = d
    · subst hvd
      simp [htrack]
    · simp [hvd, Ne.symm hvd]

/-- What insertion takes for live within a block. -/
theorem live_countCode : (code.foldr (consInstr c) (termSuffix c out t)).live.contains v = true ↔
      Passes (code.foldr (instrBefore c.isTracked)
        (((t.map Term.uses).getD []).foldl (useBefore c.isTracked) ⟨.empty, .empty⟩))
        (fun v => out.contains v = true) v := by
  induction code with
  | nil =>
    rw [foldr_nil, foldr_nil, termSuffix, contains_useAll, passes_foldl_useBefore]
    simp [Passes]
  | cons x code ih =>
    rw [foldr_cons, foldr_cons, live_consInstr, ih, passes_instrBefore]

/-- An instruction of a lowered function is no count. -/
theorem holds_of_lowered (h : checkStage .lowered b x = .ok ()) (hv : v ∈ x.uses) : Holds v x := by
  cases x with
  | inc | dec | reset | reuse | isShared | set | setTag => cases h
  | _ => exact ⟨hv, rfl, fun token he => (by cases he)⟩

/-- What is live is used behind. -/
theorem used_of_live (hcode : ∀ x ∈ code, checkStage .lowered b x = .ok ())
    (h : (code.foldr (consInstr c) (termSuffix c out t)).live.contains v = true) :
    (∃ y ∈ (code.foldr (consInstr c) (termSuffix c out t)).code, Holds v y) ∨
      v ∈ (t.map Term.uses).getD [] ∨ out.contains v = true := by
  induction code with
  | nil =>
    rw [foldr_nil, termSuffix, contains_useAll] at h
    exact .inr (h.imp_left And.right)
  | cons x code ih =>
    rw [foldr_cons] at h ⊢
    obtain ⟨before, after, heq, -⟩ := consInstr_code c x
      (code.foldr (consInstr c) (termSuffix c out t))
    rw [heq]
    rcases live_consInstr.1 h with ⟨-, hv⟩ | ⟨-, h⟩
    · exact .inl ⟨x, by simp, holds_of_lowered (hcode x (.head _)) hv⟩
    · refine (ih (fun y hy => hcode y (mem_cons_of_mem x hy)) h).imp_left ?_
      rintro ⟨y, hy, hv⟩
      exact ⟨y, mem_append_right _ hy, hv⟩

theorem not_frees_inc {u : Var} : ¬Frees v (.inc u) := by
  rintro (h | ⟨token, h⟩)
  · cases h
  · cases h

/-- What is live is not released before it is used. -/
theorem covered_of_live (hcode : ∀ x ∈ code, checkStage .lowered b x = .ok ())
    (h : (code.foldr (consInstr c) (termSuffix c out t)).live.contains v = true) :
    Covered v (code.foldr (consInstr c) (termSuffix c out t)).code := by
  induction code with
  | nil =>
    refine covered_of_not_frees fun y hy => ?_
    obtain ⟨u, -, rfl⟩ := termSuffix_code c out t y hy
    exact not_frees_inc
  | cons x code ih =>
    rw [foldr_cons] at h ⊢
    obtain ⟨before, after, heq, hbefore, hafter⟩ := consInstr_code c x
      (code.foldr (consInstr c) (termSuffix c out t))
    rw [heq, append_assoc]
    refine (covered_of_not_frees fun y hy => ?_).append ?_
    · obtain ⟨u, -, rfl⟩ := hbefore y hy
      exact not_frees_inc
    · by_cases hv : v ∈ x.uses
      · exact .inl (holds_of_lowered (hcode x (.head _)) hv)
      · have hlive := ((live_consInstr.1 h).resolve_left fun hu => hv hu.2).2
        refine .inr ⟨not_frees_of_not_mem hv, (covered_of_not_frees fun y hy => ?_).append
          (ih (fun y hy => hcode y (mem_cons_of_mem x hy)) hlive)⟩
        rcases hafter y hy with ⟨u, hu, rfl⟩ | ⟨d, -, ⟨rfl, -⟩ | ⟨rfl, hd⟩⟩
        · exact not_frees_of_not_mem fun hvu => hv (mem_singleton.1 hvu ▸ hu)
        · exact not_frees_inc
        · refine not_frees_of_not_mem fun hvd => ?_
          rw [← mem_singleton.1 hvd, hlive] at hd
          cases hd

/-- What is counted up is used later. -/
theorem secures_countCode (hcode : ∀ x ∈ code, checkStage .lowered b x = .ok ()) :
    Secures (fun v => v ∈ (t.map Term.uses).getD [] ∨ out.contains v = true)
      (code.foldr (consInstr c) (termSuffix c out t)).code := by
  induction code with
  | nil =>
    have h : Secures (fun v => v ∈ (t.map Term.uses).getD [] ∨ out.contains v = true)
        ((termSuffix c out t).code ++ []) := by
      refine Secures.append trivial fun v hv => ?_
      obtain ⟨u, hu, he⟩ := termSuffix_code c out t _ hv
      exact .inr (.inl (Instr.inc.inj he ▸ hu))
    rwa [append_nil] at h
  | cons x code ih =>
    have hcode' : ∀ y ∈ code, checkStage .lowered b y = .ok () :=
      fun y hy => hcode y (mem_cons_of_mem x hy)
    have hx := hcode x (.head _)
    rw [foldr_cons]
    obtain ⟨before, after, heq, hbefore, hafter⟩ := consInstr_code c x
      (code.foldr (consInstr c) (termSuffix c out t))
    rw [heq, append_assoc]
    refine Secures.append ⟨?_, Secures.append (ih hcode') fun v hv => ?_⟩ fun v hv => ?_
    · rintro v rfl
      cases hx
    · rcases hafter _ hv with ⟨u, -, he⟩ | ⟨d, -, ⟨he, hd⟩ | ⟨he, -⟩⟩
      · cases he
      · rw [Instr.inc.inj he]
        exact used_of_live hcode' hd
      · cases he
    · obtain ⟨u, hu, he⟩ := hbefore _ hv
      rw [Instr.inc.inj he]
      exact .inl ⟨x, .head _, holds_of_lowered hx hu⟩

theorem countBlock_eq (c : Facts) (f : Func) (out : BitSet) (b : Block) :
    ∃ unused ⊆ startVars f b, countBlock c f out b = { b with code := unused.map .dec ++
        (b.code.foldr (consInstr c) (termSuffix c out b.term)).code } :=
  ⟨_, filter_subset_self _, rfl⟩

-- ======== function

section Insert

variable {f : Func} {l : Liveness}
variable {b : BlockId} {block : Block}

/-- The function with counts inside its blocks. -/
def countBlocks (c : Facts) (l : Liveness) (f : Func) : Func :=
  { f with blocks := f.blocks.map fun b => countBlock c f (l.outs.getD b.id .empty) b }

theorem block?_countBlocks : (countBlocks c l f).block? b =
      (f.block? b).map fun block => countBlock c f (l.outs.getD block.id .empty) block := by
  rw [Func.block?, countBlocks, Array.getElem?_map]
  rfl

theorem countBlock_alike (out : BitSet) (b : Block) : b.Alike (countBlock c f out b) := by
  obtain ⟨unused, -, hblock⟩ := countBlock_eq c f out b
  rw [hblock]
  refine ⟨rfl, rfl, ?_, rfl⟩
  rw [filterMap_append, filterMap_def_dec, nil_append, (countCode_spec c out _ _).1]

/-- Counting leaves the shape of a function. -/
theorem alike_countBlocks : f.Alike (countBlocks c l f) := by
  refine ⟨rfl, rfl, rfl, ?_⟩
  rw [countBlocks, Array.toList_map, forall₂_map_right_iff, forall₂_same]
  exact fun b _ => countBlock_alike _ b

theorem mem_startVars (hf : WellFormed f) (hblock : f.block? b = some block)
    (hv : v ∈ startVars f block) : v ∈ f.defs ∧ (¬f.Misses v b ∨ v ∈ block.params) := by
  unfold startVars at hv
  rw [hf.id b block hblock] at hv
  split at hv
  · rename_i hentry
    rw [hentry]
    exact ⟨mem_append_left _ hv, .inl (Func.not_misses_entry (fun _ => hf.entry_not_successor) hv)⟩
  · exact ⟨Func.mem_defs_of_block hblock (mem_append_left _ hv), .inr hv⟩

/-- Instructions of a lowered function may stand at every stage. -/
theorem staged_of_lowered {stage : Stage} {b' : BlockId} (h : checkStage .lowered b x = .ok ()) :
    checkStage stage b' x = .ok () := by
  cases x with
  | inc | dec | reset | reuse | isShared | set | setTag => cases h
  | _ => rfl

theorem staged_count (h : x = .inc v ∨ x = .dec v) : checkStage .expanded b x = .ok () := by
  rcases h with rfl | rfl
  · rfl
  · rfl

/-- Counts inside blocks are of variables that are there. -/
theorem countBlocks_valid (hf : Valid .lowered f) : Valid .expanded (countBlocks c l f) := by
  -- what a counted block holds
  have hcases : ∀ b' ∈ (countBlocks c l f).blocks, ∃ i block, f.block? i = some block ∧
      b' = countBlock c f (l.outs.getD block.id .empty) block := by
    intro b' hb'
    obtain ⟨i, hi⟩ := Array.mem_iff_getElem?.1 hb'
    have hi' : (countBlocks c l f).block? i = some b' := hi
    rw [block?_countBlocks] at hi'
    obtain ⟨block, hblock, rfl⟩ := Option.map_eq_some_iff.1 hi'
    exact ⟨i, block, hblock, rfl⟩
  refine alike_countBlocks.valid hf (fun b' hb' y hy => ?_) (fun b' hb' v hv => ?_)
    fun b block block' hblock hblock' _ hreach hsupported => ?_
  · obtain ⟨i, block, hblock, rfl⟩ := hcases b' hb'
    obtain ⟨unused, -, heq⟩ := countBlock_eq c f (l.outs.getD block.id .empty) block
    rw [heq] at hy
    rcases mem_append.1 hy with hy | hy
    · obtain ⟨v, -, rfl⟩ := mem_map.1 hy
      exact staged_count (.inr rfl)
    · rcases (countCode_spec c _ _ _).2.1 y hy with hy | ⟨v, -, hy⟩
      · exact staged_of_lowered (hf.staged block (Array.mem_of_getElem? hblock) y hy)
      · exact staged_count hy
  · obtain ⟨i, block, hblock, rfl⟩ := hcases b' hb'
    have hmem := Array.mem_of_getElem? hblock
    obtain ⟨unused, hunused, heq⟩ := countBlock_eq c f (l.outs.getD block.id .empty) block
    rw [heq, Block.reads] at hv
    rcases mem_append.1 hv with hv | hv
    · obtain ⟨y, hy, hv⟩ := mem_flatMap.1 hv
      rcases mem_append.1 hy with hy | hy
      · obtain ⟨u, hu, rfl⟩ := mem_map.1 hy
        rw [mem_singleton.1 hv]
        exact (mem_startVars hf.toWellFormed hblock (hunused hu)).1
      · rcases (countCode_spec c _ _ _).2.1 y hy with hy | ⟨u, hu, hy⟩
        · exact hf.defined block hmem v (mem_append_left _ (mem_flatMap.2 ⟨y, hy, hv⟩))
        · have hvu : v = u := by
            rcases hy with rfl | rfl
            · exact mem_singleton.1 hv
            · exact mem_singleton.1 hv
          rw [hvu]
          exact hu.elim (hf.defined block hmem u) fun hd =>
            Func.mem_defs_of_block hblock (mem_append_right _ hd)
    · exact hf.defined block hmem v (mem_append_right _ hv)
  · rw [block?_countBlocks, hblock] at hblock'
    cases hblock'
    dsimp only
    obtain ⟨unused, hunused, heq⟩ := countBlock_eq c f (l.outs.getD block.id .empty) block
    rw [heq]
    refine supports_counts (fun y hy => ?_) ((countCode_spec c _ _ _).2.2 _ hsupported)
    obtain ⟨u, hu, rfl⟩ := mem_map.1 hy
    exact ⟨u, (mem_startVars hf.toWellFormed hblock (hunused hu)).2, .inr rfl⟩

/-- A function with releases on its edges is valid. -/
theorem releaseEdges_valid (hf : Valid .expanded f) (houts : ∀ b v, Has l.outs b v → v ∈ f.defs)
    (hsupplied : ∀ b block v, f.Reachable b → f.block? b = some block →
      Has l.outs b v → ¬f.Misses v b ∨ v ∈ block.defs) : Valid .expanded (releaseEdges f l) := by
  obtain ⟨route, front, hrouting, hreleased⟩ := releaseEdges_routing hf.toWellFormed l
  have hgap : ∀ {b t v}, v ∈ gap l b t → v ∈ f.defs := by
    intro b t v hv
    exact houts b v (mem_gap.1 hv).1
  have hdefs : ∀ {v}, v ∈ f.defs → v ∈ (releaseEdges f l).defs := by
    intro v hv
    obtain ⟨fresh, hfresh, -⟩ := hrouting.defs
    rw [hfresh]
    exact mem_append_left _ hv
  have hfront : ∀ t y, y ∈ front t → ∃ v ∈ f.defs, y = .dec v := by
    intro t y hy
    obtain ⟨vs, hvs, hgaps⟩ := (hreleased t).front_eq hf.toWellFormed
    rw [hvs] at hy
    obtain ⟨v, hv, rfl⟩ := mem_map.1 hy
    obtain ⟨b, hv⟩ := hgaps v hv
    exact ⟨v, hgap hv, rfl⟩
  refine ⟨hrouting.wellFormed hf.toWellFormed, fun b hb y hy => ?_, fun b hb v hv => ?_,
    hrouting.allSupported hf.toWellFormed hreleased hf.supported hsupplied⟩
  · obtain ⟨i, hi⟩ := Array.mem_iff_getElem?.1 hb
    rcases hrouting.block_cases hf.toWellFormed hi with
      ⟨block, hblock, rfl⟩ | ⟨c, t, args, -, -, rfl⟩
    · rcases mem_append.1 hy with hy | hy
      · obtain ⟨v, -, rfl⟩ := hfront i y hy
        exact staged_count (.inr rfl)
      · exact hf.staged block (Array.mem_of_getElem? hblock) y hy
    · obtain ⟨v, -, rfl⟩ := mem_map.1 hy
      exact staged_count (.inr rfl)
  · obtain ⟨i, hi⟩ := Array.mem_iff_getElem?.1 hb
    rcases hrouting.block_cases hf.toWellFormed hi with
      ⟨block, hblock, rfl⟩ | ⟨c, t, args, -, hhop, rfl⟩
    · have hold := hf.defined block (Array.mem_of_getElem? hblock)
      rcases mem_append.1 hv with hv | hv
      · obtain ⟨y, hy, hv⟩ := mem_flatMap.1 hv
        rcases mem_append.1 hy with hy | hy
        · obtain ⟨u, hu, rfl⟩ := hfront i y hy
          rw [mem_singleton.1 hv]
          exact hdefs hu
        · exact hdefs (hold v (mem_append_left _ (mem_flatMap.2 ⟨y, hy, hv⟩)))
      · rw [show Block.termUses { block.reroute (route i) with code := front i ++ block.code } =
          block.termUses from block.termUses_reroute] at hv
        exact hdefs (hold v (mem_append_right _ hv))
    · rcases mem_append.1 hv with hv | hv
      · obtain ⟨y, hy, hv⟩ := mem_flatMap.1 hv
        obtain ⟨u, hu, rfl⟩ := mem_map.1 hy
        rw [mem_singleton.1 hv]
        exact hdefs (hgap hu)
      · exact Func.mem_defs_of_block hhop.block (mem_append_left _ hv)

/-- Counts can be inserted into every valid function, and the result is valid
and has no tokens. -/
theorem insert_valid (hf : Valid .lowered f) (cls : Classes) (sigs : Signatures) :
    ∃ c l, factsOf f cls sigs = .ok c ∧ c.cls = cls ∧ c.sigs = sigs ∧ c.types = f.types ∧
      Solves f c.isTracked l ∧ insert f cls sigs = .ok (insertWith c l f) ∧
      Valid .expanded (insertWith c l f) := by
  obtain ⟨d, hd, -⟩ := Borrow.derived_spec hf.nodup hf.bound hf.defined
  have hfacts : factsOf f cls sigs = .ok ⟨cls, sigs, f.types, d⟩ := by
    rw [factsOf, hd]
    rfl
  obtain ⟨l, hl, hsolves⟩ := compute_solves hf.id hf.numbered.entry
    (fun _ _ => hf.lt_of_successor) (Facts.isTracked ⟨cls, sigs, f.types, d⟩)
  refine ⟨_, l, hfacts, rfl, rfl, rfl, hsolves, ?_, ?_⟩
  · rw [insert, check_ok_iff.2 hf, hfacts]
    simp only [Except.mapError, bind, Except.bind]
    rw [hl]
    rfl
  · have halike : f.Alike (countBlocks ⟨cls, sigs, f.types, d⟩ l f) := alike_countBlocks
    refine releaseEdges_valid (countBlocks_valid hf) (fun b v hv => ?_)
      fun b block v hb hblock hv => ?_
    · obtain ⟨t, -, ht⟩ := hsolves.outs_le b v hv
      obtain ⟨block, hblock, hread⟩ := mem_reads_of_live (hsolves.live t v ht)
      exact halike.defs_eq ▸ hf.defined block hblock v hread
    · obtain ⟨block₀, hblock₀, hsame⟩ := halike.back hblock
      have hb' := halike.reachable_iff.1 hb
      obtain ⟨t, ht, hin⟩ := hsolves.outs_le b v hv
      have hsupply := supplied_of_live hf.supported (hsolves.live t v hin) (.edge hb' ht)
      rw [Func.successors_eq hblock₀] at ht
      rw [hsame.defs_eq]
      exact ((Func.claims_supplied f).edge b block₀ t v hb' hblock₀ ht hsupply).imp_left
        fun hm hg => hm (halike.misses_iff.1 hg)

/-- What is live at the end of a block is used in some block that comes next
before it is released there. -/
theorem usedAfter_of_live (hf : Valid .lowered f) {g : Func} {route : BlockId → BlockId → BlockId}
    {front : BlockId → List Instr} (hsolves : Solves f c.isTracked l)
    (hrouting : Routing (countBlocks c l f) l route front g)
    (hreleased : ∀ t, ReleasedAt (countBlocks c l f) l route front t)
    (hblock : (countBlocks c l f).block? b = some block) (hv : Has l.outs b v) :
    ∃ t ∈ block.successors, ∃ target, g.block? (route b t) = some target ∧
      Covered v target.code := by
  obtain ⟨t, ht, hin⟩ := hsolves.outs_le b v hv
  have hgap : ∀ y ∈ (gap l b t).map Instr.dec, ¬Frees v y := by
    intro y hy
    obtain ⟨u, hu, rfl⟩ := mem_map.1 hy
    refine not_frees_of_not_mem fun hvu => ?_
    rw [← mem_singleton.1 hvu] at hu
    exact (mem_gap.1 hu).2 hin
  have ht' : t ∈ (countBlocks c l f).successors b := by
    rw [alike_countBlocks.successors_eq]
    exact ht
  refine ⟨t, Func.successors_eq hblock ▸ ht', ?_⟩
  rcases (hreleased t).2 b ht' with ⟨hroute, hfront⟩ | ⟨hroute, -⟩
  · rw [hroute]
    obtain ⟨target, htarget⟩ : ∃ target, f.block? t = some target :=
      ⟨_, Array.getElem?_eq_getElem (hf.lt_of_successor ht)⟩
    have hcounted : (countBlocks c l f).block? t =
        some (countBlock c f (l.outs.getD target.id .empty) target) := by
      rw [block?_countBlocks, htarget]
      rfl
    refine ⟨_, hrouting.old t _ hcounted, ?_⟩
    dsimp only
    have hlive := hsolves.ins_le t target v htarget hin
    unfold ofBlock Block.termUses at hlive
    have hlive' := live_countCode.2 (passes_foldl_defBefore.1 hlive).2
    rw [hfront]
    refine (covered_of_not_frees hgap).append ?_
    rw [hf.id t target htarget]
    unfold countBlock
    refine (covered_of_not_frees fun y hy => ?_).append
      (covered_of_live (hf.staged target (Array.mem_of_getElem? htarget)) hlive')
    obtain ⟨u, hu, rfl⟩ := mem_map.1 hy
    refine not_frees_of_not_mem fun hvu => ?_
    have hunused := (mem_filter.1 hu).2
    rw [← mem_singleton.1 hvu, Bool.and_eq_true, Bool.not_eq_true'] at hunused
    have hno := hunused.2
    rw [hlive'] at hno
    cases hno
  · obtain ⟨args, hhop⟩ := hrouting.hop b t hroute
    exact ⟨_, hhop.block, covered_of_not_frees hgap⟩

/-- What a block counts up that leads to itself is used later. -/
theorem insertWith_anchored (hf : Valid .lowered f) (hsolves : Solves f c.isTracked l) :
    Anchored (insertWith c l f) := by
  have hcounted : WellFormed (countBlocks c l f) := alike_countBlocks.wellFormed hf.toWellFormed
  obtain ⟨route, front, hrouting, hreleased⟩ := releaseEdges_routing hcounted l
  intro b block' hblock' hloop
  rcases hrouting.block_cases hcounted hblock' with
    ⟨block, hblock, rfl⟩ | ⟨c', t, args, -, hhop, rfl⟩
  · obtain ⟨vs, hvs, -⟩ := (hreleased b).front_eq hcounted
    have hnoInc : ∀ {us : List Var} {v : Var}, .inc v ∉ us.map Instr.dec := by
      intro us v hv
      obtain ⟨u, -, he⟩ := mem_map.1 hv
      cases he
    have hblock₀ := hblock
    rw [block?_countBlocks] at hblock₀
    obtain ⟨block₀, hfind, rfl⟩ := Option.map_eq_some_iff.1 hblock₀
    dsimp only
    rw [hvs]
    refine Secures.append ?_ fun v hv => absurd hv hnoInc
    unfold countBlock
    refine Secures.append ((secures_countCode
      (hf.staged block₀ (Array.mem_of_getElem? hfind))).mono fun v _ hv => ?_)
      fun v hv => absurd hv hnoInc
    rcases hv with hv | hv
    · have hterm : v ∈ (block₀.reroute (route b)).termUses := by
        rw [Block.termUses_reroute]
        exact hv
      exact .inl hterm
    · right
      rw [hf.id b block₀ hfind] at hv
      obtain ⟨t, ht, target, htarget, hcovered⟩ :=
        usedAfter_of_live hf hsolves hrouting hreleased hblock hv
      exact ⟨route b t, Routing.mem_successors_old.2 ⟨t, ht, rfl⟩, target, htarget, hcovered⟩
  · rw [Routing.successors_hopBlock, mem_singleton] at hloop
    have hlt := hcounted.lt_of_successor hhop.edge
    exact absurd (hloop ▸ hlt) (not_lt.2 hhop.new)

end Insert

end Count

end RefCount
