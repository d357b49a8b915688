/-
Live variables by paths. A variable is live at a point if some way from there
reads it before it is defined (`LiveFrom`). That is what the search for live
variables finds: within a block that can be reached, what the sets say of a
point is what the paths from it say (`Solves.passes_iff`).

In a checked function nothing is live that has not been defined on every way to
the point, so at its entry only parameters are live (`not_liveFrom_of_misses`).

The search ends with what the paths say, and every queue that gives back what
was put in leads to the same sets (`compute_exact`).
-/
import Mathlib
import RefCount.Proofs.Ir.Check
import RefCount.Proofs.Liveness

namespace RefCount.Liveness

open Ir

/-- Whether some way from a point of a block reads a variable before it is
defined. The point is given by the code that is left. -/
inductive LiveFrom (f : Func) (v : Var) : Block → List Instr → Prop
  | use {block : Block} {x : Instr} {rest : List Instr} (h : v ∈ x.uses) :
      LiveFrom f v block (x :: rest)
  | pass {block : Block} {x : Instr} {rest : List Instr} (hx : x.def? ≠ some v)
      (h : LiveFrom f v block rest) : LiveFrom f v block (x :: rest)
  | last {block : Block} (h : v ∈ block.termUses) : LiveFrom f v block []
  | edge {block target : Block} {t : BlockId} (ht : t ∈ block.successors)
      (htarget : f.block? t = some target) (hv : v ∉ target.params)
      (h : LiveFrom f v target target.code) : LiveFrom f v block []

/-- What code and the terminator behind it do to live variables. -/
def transferFrom (track : Var → Bool) (block : Block) (code : List Instr) : Transfer :=
  code.foldr (Transfer.instrBefore track)
    (block.termUses.foldl (Transfer.useBefore track) ⟨.empty, .empty⟩)

variable {f : Func} {track : Var → Bool} {l : Liveness} {b : BlockId} {block : Block} {v : Var}
  {P : Var → Prop} {code : List Instr}

theorem passes_nil : Passes (transferFrom track block []) P v ↔
    (track v = true ∧ v ∈ block.termUses) ∨ P v := by
  rw [transferFrom, List.foldr_nil, passes_foldl_useBefore]
  simp [Passes]

theorem passes_cons {x : Instr} : Passes (transferFrom track block (x :: code)) P v ↔
    (track v = true ∧ v ∈ x.uses) ∨
      ¬(track v = true ∧ x.def? = some v) ∧ Passes (transferFrom track block code) P v :=
  passes_instrBefore

theorem passes_ofBlock : Passes (.ofBlock track block) P v ↔
    ¬(track v = true ∧ v ∈ block.params) ∧
      Passes (transferFrom track block block.code) P v :=
  passes_foldl_defBefore

theorem liveFrom_of_passes (hv : track v = true) (hP : P v → LiveFrom f v block []) :
    Passes (transferFrom track block code) P v → LiveFrom f v block code := by
  induction code with
  | nil => exact fun h => (passes_nil.1 h).elim (fun h => .last h.2) hP
  | cons x code ih =>
    intro h
    rcases passes_cons.1 h with ⟨-, h⟩ | ⟨hx, h⟩
    · exact .use h
    · exact .pass (fun hd => hx ⟨hv, hd⟩) (ih h)

theorem Live.exists_block (h : Live f track b v) : ∃ block, f.block? b = some block := by
  cases h with
  | use hb _ => exact ⟨_, hb⟩
  | pass hb _ _ _ => exact ⟨_, hb⟩

/-- What the equations say is live is read on some way. -/
theorem Live.liveFrom (h : Live f track b v) (hblock : f.block? b = some block) :
    v ∉ block.params ∧ LiveFrom f v block block.code := by
  have htrack := h.isTracked
  induction h generalizing block with
  | @use b block' v hb hgen =>
    obtain rfl := Option.some.inj (hblock.symm.trans hb)
    have hpass : Passes (.ofBlock track block) (fun _ => False) v := .inl hgen
    obtain ⟨hno, hpass⟩ := passes_ofBlock.1 hpass
    exact ⟨fun hp => hno ⟨htrack, hp⟩, liveFrom_of_passes htrack False.elim hpass⟩
  | @pass b t block' v hb hkill ht h ih =>
    obtain rfl := Option.some.inj (hblock.symm.trans hb)
    have hpass : Passes (.ofBlock track block) (fun _ => True) v := .inr ⟨trivial, hkill⟩
    obtain ⟨hno, hpass⟩ := passes_ofBlock.1 hpass
    refine ⟨fun hp => hno ⟨htrack, hp⟩, liveFrom_of_passes htrack (fun _ => ?_) hpass⟩
    obtain ⟨target, htarget⟩ := h.exists_block
    obtain ⟨hparam, hlive⟩ := ih htarget htrack
    exact .edge ht htarget hparam hlive

/-- What is read on some way the equations say is live. -/
theorem Solves.passes_of_liveFrom (hs : Solves f track l) (hv : track v = true)
    (h : LiveFrom f v block code) (hb : f.Reachable b) (hblock : f.block? b = some block) :
    Passes (transferFrom track block code) (Has l.outs b) v := by
  induction h generalizing b with
  | use h => exact passes_cons.2 (.inl ⟨hv, h⟩)
  | pass hx _ ih => exact passes_cons.2 (.inr ⟨fun h => hx h.2, ih hb hblock⟩)
  | last h => exact passes_nil.2 (.inl ⟨hv, h⟩)
  | @edge block target t ht htarget hparam _ ih =>
    have ht' : t ∈ f.successors b := Func.successors_eq hblock ▸ ht
    have hreach : f.Reachable t := .edge hb ht'
    refine passes_nil.2 (.inr ((hs.outs b hb v).2 ⟨t, ht', ?_⟩))
    exact (hs.ins t hreach target htarget v).2
      (passes_ofBlock.2 ⟨fun h => hparam h.2, ih hreach htarget⟩)

/-- The sets that are found say of a point of a block what the paths from it
say. -/
theorem Solves.passes_iff (hs : Solves f track l) (hv : track v = true) (hb : f.Reachable b)
    (hblock : f.block? b = some block) :
    Passes (transferFrom track block code) (Has l.outs b) v ↔ LiveFrom f v block code := by
  refine ⟨liveFrom_of_passes hv fun hout => ?_, fun h => hs.passes_of_liveFrom hv h hb hblock⟩
  obtain ⟨t, ht, hin⟩ := hs.outs_le b v hout
  have hlive := hs.live t v hin
  obtain ⟨target, htarget⟩ := hlive.exists_block
  obtain ⟨hparam, hfrom⟩ := hlive.liveFrom htarget
  exact .edge (Func.successors_eq hblock ▸ ht) htarget hparam hfrom

/-- Whether some way from the start of a block reads a variable before it is
defined. -/
def LiveIn (f : Func) (v : Var) (b : BlockId) : Prop :=
  ∃ block, f.block? b = some block ∧ v ∉ block.params ∧ LiveFrom f v block block.code

/-- The same of the end of a block. -/
def LiveOut (f : Func) (v : Var) (b : BlockId) : Prop :=
  ∃ t ∈ f.successors b, LiveIn f v t

/-- What is found at the start of a block that can be reached. -/
theorem Solves.has_ins_iff (hs : Solves f track l) (hb : f.Reachable b)
    (hlt : b < f.blocks.size) : Has l.ins b v ↔ track v = true ∧ LiveIn f v b := by
  constructor
  · intro h
    have hlive := hs.live b v h
    exact ⟨hlive.isTracked, _, Array.getElem?_eq_getElem hlt,
      hlive.liveFrom (Array.getElem?_eq_getElem hlt)⟩
  · rintro ⟨hv, block, hblock, hparam, h⟩
    exact (hs.ins b hb block hblock v).2
      (passes_ofBlock.2 ⟨fun hp => hparam hp.2, hs.passes_of_liveFrom hv h hb hblock⟩)

/-- In a checked function the search for live variables ends. It finds a
tracked variable at the start or at the end of a block that can be reached
exactly if some way from there reads it before it is defined, and it finds the
same in every block in whatever order blocks are taken from the queue. -/
theorem compute_exact {stage : Stage} (hf : f.check stage = .ok ()) (track : Var → Bool) :
    ∃ l, compute f track = .ok l ∧
      (∀ b v, f.Reachable b → (Has l.ins b v ↔ track v = true ∧ LiveIn f v b) ∧
        (Has l.outs b v ↔ track v = true ∧ LiveOut f v b)) ∧
      ∀ q : Queue, q.Lawful → ∃ l', computeWith q f track = .ok l' ∧
        ∀ b v, (Has l'.ins b v ↔ Has l.ins b v) ∧ (Has l'.outs b v ↔ Has l.outs b v) := by
  have hvalid := check_ok_iff.1 hf
  have hentry := hvalid.numbered.entry
  have htargets : ∀ b, ∀ t ∈ f.successors b, t < f.blocks.size :=
    fun b t ht => hvalid.lt_of_successor ht
  obtain ⟨ts, hts, -⟩ := transfersOf_ok hvalid.id track
  -- whatever the queue, it is the blocks and variables that the search comes to
  have hfound : ∀ q : Queue, q.Lawful → ∃ l', computeWith q f track = .ok l' ∧
      ∀ b v, (Has l'.ins b v ↔ Sees f ts b (some v)) ∧
        (Has l'.outs b v ↔ ∃ t ∈ f.successors b, Sees f ts t (some v)) := by
    intro q hq
    obtain ⟨l', hrun, hbelow, hsolved⟩ :=
      computeWith_solved hq hvalid.id hentry htargets hts
    refine ⟨l', hrun, fun b v => ⟨Liveness.has_ins_iff hbelow hsolved, ?_⟩⟩
    rw [has_outs_iff hbelow hsolved]
    exact exists_congr fun t => and_congr_right fun _ => Liveness.has_ins_iff hbelow hsolved
  obtain ⟨l, hrun, hsolves⟩ := compute_solves hvalid.id hentry htargets track
  obtain ⟨l₁, hrun₁, hsees⟩ := hfound _ (Queue.lawful_byRank _)
  obtain rfl := Except.ok.inj (hrun₁.symm.trans hrun)
  have hlt : ∀ {b}, f.Reachable b → b < f.blocks.size := by
    intro b hb
    cases hb with
    | entry => exact hentry
    | edge _ ht => exact htargets _ _ ht
  refine ⟨l₁, hrun, fun b v hb => ⟨hsolves.has_ins_iff hb (hlt hb), ?_⟩, fun q hq => ?_⟩
  · rw [hsolves.outs b hb v, LiveOut, ← exists_and_left]
    refine exists_congr fun t => ?_
    rw [and_left_comm]
    refine and_congr_right fun ht => ?_
    have hreach : f.Reachable t := .edge hb ht
    exact hsolves.has_ins_iff hreach (hlt hreach)
  · obtain ⟨l', hrun', hsees'⟩ := hfound q hq
    exact ⟨l', hrun', fun b v => ⟨(hsees' b v).1.trans (hsees b v).1.symm,
      (hsees' b v).2.trans (hsees b v).2.symm⟩⟩

/-- A loop that reads a parameter of the function in every round, with a block
that leads into it and cannot be reached. -/
def rounds : Func where
  name := "rounds"
  params := [⟨0, .int, .owned⟩]
  result := .int
  blocks := #[⟨0, [], [], some (.jump (some 1) [0])⟩,
    ⟨1, [1], [.prim 2 "lt" [1, 0]], some (.branch 2 (some 2) (some 3))⟩,
    ⟨2, [], [.prim 3 "add" [1, 0]], some (.jump (some 1) [3])⟩,
    ⟨3, [], [], some (.ret 1)⟩,
    ⟨4, [], [.lit 4 (.int 0)], some (.jump (some 1) [4])⟩]
  entry := 0
  types := #[.int, .int, .bool, .int, .int]

theorem compute_exact_rounds : rounds.check .lowered = .ok () ∧
    ∃ l, compute rounds (fun _ => true) = .ok l ∧
      (∀ b v, rounds.Reachable b → (Has l.ins b v ↔ true = true ∧ LiveIn rounds v b) ∧
        (Has l.outs b v ↔ true = true ∧ LiveOut rounds v b)) ∧
      ∀ q : Queue, q.Lawful → ∃ l', computeWith q rounds (fun _ => true) = .ok l' ∧
        ∀ b v, (Has l'.ins b v ↔ Has l.ins b v) ∧ (Has l'.outs b v ↔ Has l.outs b v) := by
  have hcheck : rounds.check .lowered = .ok () := by decide +kernel
  exact ⟨hcheck, compute_exact hcheck fun _ => true⟩

end RefCount.Liveness
