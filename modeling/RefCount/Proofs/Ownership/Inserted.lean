/-
Inserted counts follow a plan. At the start of a block a variable owns one
reference if it is live there or a parameter that has to be released, and one
more if it is released in front of the block for all edges into it. Every edge
brings what is live at the end of the block that it leaves (`planOf_edge`), so
the plan fits the whole function (`follows_insertWith`).

# Blocks on edges

A block is put on an edge only where there is something to release. A block that
ends with a jump has one successor, and what is live at its end is live there, so
that only edges without arguments get blocks (`params_of_hop`).
-/
import Mathlib
import RefCount.Proofs.Ownership.Balance

namespace RefCount.Ownership

open Ir RefCount.Count List Option Liveness Bool

section Defs

variable {f : Func} {b : BlockId} {block : Block} {x : Instr} {d : Var}

/-- No instruction reads what it defines. -/
theorem not_mem_uses_of_def (hf : WellFormed f) (hsupp : f.AllSupported) (hb : f.Reachable b)
    (hblock : f.block? b = some block) (hx : x ∈ block.code) (hd : x.def? = some d) :
    d ∉ x.uses := by
  intro huse
  obtain ⟨front, rest, hcode⟩ := append_of_mem hx
  have hdefs : block.defs = block.params ++ (front.filterMap Instr.def? ++
      d :: rest.filterMap Instr.def?) := by
    rw [Block.defs, hcode, filterMap_append, filterMap_cons_some hd]
  have hnd := Func.nodup_block hf.nodup hblock
  have hin : d ∈ block.defs := by
    rw [hdefs]
    simp
  have hs := hsupp b block hb hblock
  rw [Func.Supported, hcode, supports_append] at hs
  rw [hdefs] at hnd
  rcases hs.2.1 d huse with (h | h) | h
  · exact h (Func.misses_of_mem_defs hf.nodup hb hblock hin)
  · exact (nodup_append.1 hnd).2.2 d h d (by simp) rfl
  · exact (nodup_append.1 (nodup_append.1 hnd).2.1).2.2 d h d (by simp) rfl

theorem lt_of_reachable (hf : WellFormed f) (hb : f.Reachable b) : b < f.blocks.size :=
  hb.lt hf.numbered.entry fun _ _ => hf.lt_of_successor

theorem exists_block_of_reachable (hf : WellFormed f) (hb : f.Reachable b) :
    ∃ block, f.block? b = some block :=
  ⟨_, Array.getElem?_eq_getElem (lt_of_reachable hf hb)⟩

end Defs

-- ======== the plan

/-- A block with counts, and what is live where its own code starts. -/
abbrev bodyOf (c : Facts) (l : Liveness) (block : Block) : Suffix :=
  block.code.foldr (consInstr c) (termSuffix c (l.outs.getD block.id .empty) block.term)

/-- What has its value at the start of a block and is not needed. -/
abbrev unusedIn (c : Facts) (l : Liveness) (f : Func) (block : Block) : List Var :=
  (startVars f block).filter fun v => c.isTracked v && !(bodyOf c l block).live.contains v

/-- Who owns what at the start of a block, given what is released in front of
it. -/
def startHolding (c : Facts) (l : Liveness) (f : Func) (front : List Var) (block : Block) :
    Holding where
  own v := ((bodyOf c l block).live.contains v).toNat + (unusedIn c l f block).count v +
    front.count v
  part _ := none

/-- Who owns what at the start of a block on an edge. -/
def hopHolding (l : Liveness) (block : Block) : Holding where
  own v := (block.successors.countP fun t => (l.ins.getD t .empty).contains v) +
    (block.code.flatMap Instr.uses).count v
  part _ := none

open Classical in
/-- The plan of a function with counts. -/
noncomputable def planOf (c : Facts) (l : Liveness) (f g : Func)
    (route : BlockId → BlockId → BlockId) (front : BlockId → List Var) : Plan := fun b =>
  if f.Reachable b then (f.block? b).map (startHolding c l f (front b))
  else if ∃ p t, f.Reachable p ∧ t ∈ f.successors p ∧ route p t = b then
    (g.block? b).map (hopHolding l)
  else none

/-- A function whose counts have been put in, with where its edges lead and what
is released in front of its blocks. -/
structure Counted (c : Facts) (l : Liveness) (f g : Func)
    (route : BlockId → BlockId → BlockId) (front : BlockId → List Var) : Prop where
  valid : Valid .lowered f
  aliases : KnowsAliases f c
  solves : Solves f c.isTracked l
  routing : Routing (countBlocks c l f) l route (fun b => (front b).map .dec) g
  released : ∀ t, ReleasedAt (countBlocks c l f) l route (fun b => (front b).map .dec) t

theorem exists_counted {f : Func} {c : Facts} {l : Liveness} (hf : Valid .lowered f)
    (hk : KnowsAliases f c) (hsolves : Solves f c.isTracked l) :
    ∃ route front, Counted c l f (insertWith c l f) route front := by
  have hcounted : WellFormed (countBlocks c l f) := alike_countBlocks.wellFormed hf.toWellFormed
  obtain ⟨route, front, hrouting, hreleased⟩ := releaseEdges_routing hcounted l
  choose vs hvs using fun t => (hreleased t).front_eq hcounted
  obtain rfl : front = fun b => (vs b).map .dec := funext fun t => (hvs t).1
  exact ⟨route, vs, hf, hk, hsolves, hrouting, hreleased⟩

namespace Counted

variable {c : Facts} {l : Liveness} {f g : Func} {route : BlockId → BlockId → BlockId}
  {front : BlockId → List Var} {b t : BlockId} {block target : Block} {v : Var}

-- ------------------------------------------------------------------- sets
variable (h : Counted c l f g route front)
include h

theorem tracked_of_in (hv : Has l.ins b v) :
    c.isTracked v = true := (h.solves.live b v hv).isTracked

theorem tracked_of_out (hv : Has l.outs b v) : c.isTracked v = true := by
  obtain ⟨t, -, ht⟩ := h.solves.outs_le b v hv
  exact h.tracked_of_in ht

theorem id_eq (hblock : f.block? b = some block) : block.id = b := h.valid.id b block hblock

/-- What is live at the start of a block is live where its own code starts, but
for its parameters. -/
theorem in_iff (hb : f.Reachable b) (hblock : f.block? b = some block) : Has l.ins b v ↔
      ¬(c.isTracked v = true ∧ v ∈ block.params) ∧ (bodyOf c l block).live.contains v = true := by
  rw [h.solves.ins b hb block hblock, live_countCode, h.id_eq hblock]
  exact passes_foldl_defBefore

/-- What is released on an edge is what is live only before it. -/
theorem count_gap (hb : f.Reachable b) (ht : t ∈ f.successors b) (v : Var) :
    ((l.ins.getD t .empty).contains v).toNat + (gap l b t).count v =
      ((l.outs.getD b .empty).contains v).toNat := by
  have hmem := mem_gap (l := l) (b := b) (t := t) (v := v)
  have hnd : (gap l b t).Nodup := BitSet.nodup_toList
  have hle : Has l.ins t v → Has l.outs b v :=
    fun hin => (h.solves.outs b hb v).2 ⟨t, ht, hin⟩
  unfold Has at hle
  rw [hnd.count]
  cases hin : (l.ins.getD t .empty).contains v with
  | true =>
    rw [if_neg fun hv => (hmem.1 hv).2 hin, hle hin]
    rfl
  | false =>
    rw [hin] at hmem
    cases hout : (l.outs.getD b .empty).contains v with
    | true =>
      rw [if_pos (hmem.2 ⟨hout, false_ne_true⟩)]
      rfl
    | false =>
      rw [if_neg fun hv => false_ne_true (hout.symm.trans (hmem.1 hv).1)]
      rfl

/-- What is live at the end of a block that ends with a jump is live where it
leads. -/
theorem gap_of_jump (hblock : f.block? b = some block)
    {args : List Var} (hterm : block.term = some (.jump (some t) args)) : gap l b t = [] := by
  refine eq_nil_iff_forall_not_mem.2 fun v hv => ?_
  obtain ⟨hout, hno⟩ := mem_gap.1 hv
  obtain ⟨t', ht', hin⟩ := h.solves.outs_le b v hout
  rw [Func.successors_eq hblock] at ht'
  rw [Block.eq_of_mem_jump hterm ht'] at hin
  exact hno hin

-- ----------------------------------------------------------------- blocks

omit h in
theorem successors_eq (b : BlockId) : (countBlocks c l f).successors b = f.successors b :=
  alike_countBlocks.successors_eq b

section

variable (hblock : f.block? b = some block)
include hblock

theorem countBlocks_some : (countBlocks c l f).block? b =
      some (countBlock c f (l.outs.getD b .empty) block) := by
  rw [block?_countBlocks, hblock, map_some, h.id_eq hblock]

theorem block_eq :
    ∃ block', g.block? b = some block' ∧ block'.params = block.params ∧
      block'.code = (front b).map .dec ++ ((unusedIn c l f block).map .dec ++
        (bodyOf c l block).code) ∧ block'.term = block.term.map (Term.reroute (route b)) := by
  refine ⟨_, h.routing.old b _ (h.countBlocks_some hblock), rfl, ?_, rfl⟩
  rw [← h.id_eq hblock]
  rfl

theorem edge_fits
    (ht : t ∈ f.successors b) : ∃ target, f.block? t = some target ∧ EdgeFits block target :=
  h.valid.edge block (Array.mem_of_getElem? hblock) t (Func.successors_eq hblock ▸ ht)

end

/-- Only edges without arguments get blocks. -/
theorem params_of_hop (ht : t ∈ f.successors b)
    (hne : route b t ≠ t) (htarget : f.block? t = some target) : target.params = [] := by
  obtain ⟨args, hhop⟩ := h.routing.hop b t hne
  obtain ⟨block, hblock, -⟩ := Func.exists_of_successor ht
  obtain ⟨target', htarget', hfits⟩ := h.edge_fits hblock ht
  cases htarget.symm.trans htarget'
  unfold EdgeFits at hfits
  cases hterm : block.term with
  | none =>
    rw [hterm] at hfits
    exact hfits
  | some term =>
    rw [hterm] at hfits
    cases term with
    | jump o args =>
      refine absurd ?_ hhop.needed
      cases o with
      | none =>
        rw [Func.successors_eq hblock, Block.successors, hterm] at ht
        cases ht
      | some t' =>
        rw [Func.successors_eq hblock] at ht
        obtain rfl := Block.eq_of_mem_jump hterm ht
        exact h.gap_of_jump hblock hterm
    | ret | branch | switch | unreachable => exact hfits

-- ------------------------------------------------------------------ edges

/-- What is owned where the own code of a block starts, or released because it
is not needed, is what is live at its start, and its parameters. -/
theorem own_start (hb : f.Reachable b) (hne : b ≠ f.entry)
    (hblock : f.block? b = some block) (v : Var) :
    ((bodyOf c l block).live.contains v).toNat + (unusedIn c l f block).count v =
      ((l.ins.getD b .empty).contains v).toNat +
        if c.isTracked v = true ∧ v ∈ block.params then 1 else 0 := by
  have hstart : startVars f block = block.params := by
    rw [startVars, h.id_eq hblock, if_neg hne]
  have hparams := (nodup_append.1 (Func.nodup_block h.valid.nodup hblock)).1
  have hin := h.in_iff (v := v) hb hblock
  unfold Has at hin
  have hcount : (unusedIn c l f block).count v = if (c.isTracked v = true ∧ v ∈ block.params) ∧
      (bodyOf c l block).live.contains v = false then 1 else 0 := by
    rw [unusedIn, hstart, (hparams.filter _).count]
    refine if_congr ?_ rfl rfl
    rw [mem_filter, Bool.and_eq_true, Bool.not_eq_true']
    tauto
  rw [hcount]
  by_cases hp : c.isTracked v = true ∧ v ∈ block.params
  · have hno : (l.ins.getD b .empty).contains v = false :=
      Bool.eq_false_iff.2 fun hv => (hin.1 hv).1 hp
    rw [hno, if_pos hp]
    cases (bodyOf c l block).live.contains v with
    | true => simp
    | false => simp [hp]
  · have hsame : (l.ins.getD b .empty).contains v = (bodyOf c l block).live.contains v := by
      rw [Bool.eq_iff_iff, hin]
      exact and_iff_right hp
    rw [hsame, if_neg hp, if_neg fun hv => hp hv.1]

omit h in
theorem planOf_old (hb : f.Reachable b) (hblock : f.block? b = some block) :
    planOf c l f g route front b = some (startHolding c l f (front b) block) := by
  rw [planOf, if_pos hb, hblock]
  rfl

omit h in
theorem map_dec_injective {us vs : List Var} (h : us.map Instr.dec = vs.map Instr.dec) : us = vs :=
  map_injective_iff.2 (fun _ _ he => Instr.dec.inj he) h

/-- The block on an edge has no parameters. -/
theorem hop_block (hb : f.Reachable b) (ht : t ∈ f.successors b) (hne : route b t ≠ t) :
    g.block? (route b t) = some (hopBlock (route b t) t [] (gap l b t)) := by
  obtain ⟨args, hhop⟩ := h.routing.hop b t hne
  obtain ⟨target, htarget⟩ := exists_block_of_reachable h.valid.toWellFormed (.edge hb ht)
  have hlen := hhop.length _ (h.countBlocks_some htarget)
  have hsame : (countBlock c f (l.outs.getD t .empty) target).params = target.params := rfl
  rw [hsame, h.params_of_hop ht hne htarget] at hlen
  obtain rfl := length_eq_zero_iff.1 hlen
  exact hhop.block

omit h in
theorem own_hop (T : BlockId) (vs : List Var) (v : Var) :
    (hopHolding l (hopBlock T t [] vs)).own v =
      ((l.ins.getD t .empty).contains v).toNat + vs.count v := by
  have hdecs : ((hopBlock T t [] vs).code.flatMap Instr.uses) = vs := by
    rw [hopBlock, flatMap_map]
    exact (flatMap_pure_eq_map _ _).trans (map_id _)
  rw [hopHolding]
  dsimp only
  rw [hdecs, Routing.successors_hopBlock, countP_singleton]
  cases (l.ins.getD t .empty).contains v <;> rfl

/-- Every edge brings what is live at the end of the block that it leaves, and
what it hands to parameters. -/
theorem planOf_edge (hb : f.Reachable b)
    (ht : t ∈ f.successors b) (htarget : f.block? t = some target) :
    ∃ τ, planOf c l f g route front (route b t) = some τ ∧ (∀ x, τ.part x = none) ∧
      ∀ x, τ.own x = ((l.outs.getD b .empty).contains x).toNat +
        if c.isTracked x = true ∧ x ∈ target.params then 1 else 0 := by
  have hreach : f.Reachable t := .edge hb ht
  have hentry : t ≠ f.entry := fun he => h.valid.entry_not_successor (he ▸ ht)
  have ht' : t ∈ (countBlocks c l f).successors b := (successors_eq b).symm ▸ ht
  by_cases hroute : route b t = t
  · have hfront : front t = gap l b t := by
      rcases (h.released t).2 b ht' with ⟨-, hfront⟩ | ⟨hne, -⟩
      · exact map_dec_injective hfront
      · exact absurd hroute hne
    refine ⟨_, by rw [hroute]; exact planOf_old hreach htarget, fun x => rfl, fun x => ?_⟩
    rw [← h.count_gap hb ht, startHolding]
    dsimp only
    rw [h.own_start hreach hentry htarget, hfront]
    omega
  · obtain ⟨args, hhop⟩ := h.routing.hop b t hroute
    have hnew : ¬f.Reachable (route b t) := by
      intro hr
      have hlt : route b t < (countBlocks c l f).blocks.size := by
        rw [countBlocks, Array.size_map]
        exact lt_of_reachable h.valid.toWellFormed hr
      exact absurd hhop.new (not_le.2 hlt)
    refine ⟨_, by rw [planOf, if_neg hnew, if_pos ⟨b, t, hb, ht, rfl⟩, h.hop_block hb ht hroute]
                  rfl, fun x => rfl, fun x => ?_⟩
    rw [own_hop, h.count_gap hb ht, h.params_of_hop ht hroute htarget]
    simp

-- ----------------------------------------------------------------- leaving

/-- What stands in front of a block that is reached over a block on an edge. -/
theorem front_of_hop (ht : t ∈ f.successors b) (hne : route b t ≠ t) : front t = [] := by
  rcases (h.released t).2 b ((successors_eq b).symm ▸ ht) with ⟨hroute, -⟩ | ⟨-, hfront⟩
  · exact absurd hroute hne
  · exact map_eq_nil_iff.1 hfront

section

variable (hb : f.Reachable b) (hblock : f.block? b = some block)
include hb hblock

/-- What is looked at by a terminator is of no account for where it leads. -/
theorem expects_edge {u : Var} {σ : Holding} {downs : List Var} {o : Target}
    (ho : ∀ t, o = some t → t ∈ f.successors b ∧ ∀ target, f.block? t = some target →
      target.params = []) (hdowns : ∀ v, v ≠ u → downs.count v = 0)
    (hσ : ∀ v, σ.own v = ((l.outs.getD b .empty).contains v).toNat + downs.count v) :
    Expects (rolesOf c) (planOf c l f g route front) (· = u) σ (o.map (route b)) := by
  intro b' hb'
  obtain ⟨t, rfl, rfl⟩ := map_eq_some_iff.1 hb'
  obtain ⟨ht, hparams⟩ := ho t rfl
  obtain ⟨target, htarget, -⟩ := h.edge_fits hblock ht
  obtain ⟨τ, hτ, hpart, hown⟩ := h.planOf_edge hb ht htarget
  refine ⟨τ, hτ, fun x hx _ => ?_, fun x q hq => ?_⟩
  · rw [hown, hσ, hdowns x hx, hparams target htarget]
    simp
  · rw [hpart] at hq
    cases hq

/-- The terminator of a block finds what the plan says of where it leads. -/
theorem leaves_term {σ : Holding} {downs : List Var} {term : Term}
    (hterm : block.term = some term)
    (hdowns : ∀ v, (v, false) ∉ termOperands (some term) → downs.count v = 0)
    (hready : ∀ spent, (∀ v, spent.count v = (termOperands (some term)).count (v, true)) →
      Ready c (l.outs.getD b .empty) (termOperands (some term)) downs σ spent) :
    Leaves (rolesOf c) (planOf c l f g route front) g σ (term.reroute (route b)) := by
  -- a terminator that looks at one variable only
  have hlook : ∀ u, termOperands (some term) = [(u, false)] →
      (∀ target, EdgeFits block target → target.params = []) →
      σ.Readable (rolesOf c) u ∧ ∀ o ∈ term.targets,
        Expects (rolesOf c) (planOf c l f g route front) (· = u) σ (o.map (route b)) := by
    intro u hops hfits
    have hr := hready [] fun v => by
      rw [hops]
      exact (count_lookedAt [u] v).symm
    refine ⟨hr.read u (hops ▸ (.head _)), fun o ho => ?_⟩
    refine h.expects_edge hb hblock (fun t ht => ?_) (fun v hv => hdowns v ?_) hr.left
    · have hsucc := Func.successors_eq hblock ▸ Block.mem_successors hterm (ht ▸ ho)
      refine ⟨hsucc, fun target htarget => ?_⟩
      obtain ⟨target', htarget', hfit⟩ := h.edge_fits hblock hsucc
      cases htarget.symm.trans htarget'
      exact hfits target hfit
    · rw [hops, mem_singleton]
      exact fun he => hv (congrArg Prod.fst he)
  have hnone : ∀ vs : List Var, termOperands (some term) = vs.map (·, true) →
      ∀ v, downs.count v = 0 := by
    intro vs hops v
    refine hdowns v fun hv => ?_
    rw [hops] at hv
    obtain ⟨u, -, hu⟩ := mem_map.1 hv
    cases congrArg Prod.snd hu
  cases term with
  | ret v =>
    have hr := hready [v] fun u => (count_pairs [v] u true).symm
    refine .ret fun x hx => ?_
    have hout : (l.outs.getD b .empty).contains x = false := by
      refine Bool.eq_false_iff.2 fun hv => ?_
      obtain ⟨t, ht, -⟩ := h.solves.outs_le b x hv
      rw [Func.successors_eq hblock, Block.successors, hterm] at ht
      cases ht
    have hleft := hr.left x
    rw [own_spendAll, hout, hnone [v] rfl x, count_singleton] at hleft
    by_cases hxv : x = v
    · subst hxv
      have hpos := hr.covers.1 hx
      simp only [beq_self_eq_true, if_true, Bool.toNat_false] at hleft
      rw [if_pos rfl]
      omega
    · rw [if_neg hxv]
      rw [if_neg (by simpa using Ne.symm hxv)] at hleft
      simpa using hleft
  | jump o args =>
    have hr := hready args fun u => (count_pairs args u true).symm
    refine .jump hr.covers fun b' block' hb' hblock' => ?_
    obtain ⟨t, rfl, rfl⟩ := map_eq_some_iff.1 hb'
    have ht : t ∈ f.successors b := Func.successors_eq hblock ▸ Block.mem_successors hterm (.head _)
    have hroute : route b t = t := by
      by_contra hne
      obtain ⟨args', hhop⟩ := h.routing.hop b t hne
      exact hhop.needed (h.gap_of_jump hblock hterm)
    obtain ⟨target, htarget, hfit⟩ := h.edge_fits hblock ht
    obtain ⟨block'', hblock'', hparams, -, -⟩ := h.block_eq htarget
    rw [hroute] at hblock' hb'
    cases hblock'.symm.trans hblock''
    have hreach : f.Reachable t := .edge hb ht
    have hfresh : ∀ p ∈ target.params, (σ.spendAll args).own p = 0 := by
      intro p hp
      rw [hr.left, hnone args rfl]
      refine congrArg (· + 0) (?_ : _ = 0)
      rw [Bool.toNat_eq_zero, Bool.eq_false_iff]
      intro hout
      obtain ⟨t', ht', hin⟩ := h.solves.outs_le b p hout
      rw [Func.successors_eq hblock] at ht'
      obtain rfl := Block.eq_of_mem_jump hterm ht'
      exact ((h.in_iff hreach htarget).1 hin).1 ⟨h.tracked_of_in hin, hp⟩
    have hderived : ∀ p ∈ target.params, c.derived.contains p = false := by
      intro p hp
      rw [Bool.eq_false_iff, ne_eq, h.aliases]
      rintro ⟨q, -, -, hleads⟩
      exact Borrow.not_leads_of_blockParam h.valid.nodup (Array.mem_of_getElem? htarget) hp hleads
    rw [EdgeFits, hterm] at hfit
    rw [hparams]
    refine ⟨hfit.symm, ?_, fun p hp => ⟨hfresh p hp, hderived p hp, id⟩, fun b'' hb'' => ?_⟩
    · exact (nodup_append.1 (Func.nodup_block h.valid.nodup htarget)).1
    · cases hb''
      obtain ⟨τ, hτ, hpart, hown⟩ := h.planOf_edge hb ht htarget
      refine ⟨τ, hτ, fun x _ hx => ?_, fun x q hq => ?_⟩
      · rw [hown, own_gainAll]
        by_cases hp : x ∈ target.params
        · have hzero := hfresh x hp
          rw [hr.left, hnone args rfl] at hzero
          have hx' : c.isCounted x = true := hx
          rw [if_pos hp, if_pos hx, if_pos ⟨tracked_iff.2 ⟨hx', hderived x hp⟩, hp⟩]
          omega
        · rw [if_neg hp, if_neg fun hv => hp hv.2, hr.left, hnone args rfl]
      · rw [hpart] at hq
        cases hq
  | branch u a a' =>
    obtain ⟨hread, hto⟩ := hlook u rfl fun target hfit => by
      rw [EdgeFits, hterm] at hfit
      exact hfit
    exact .branch hread (hto a (by simp [Term.targets])) (hto a' (by simp [Term.targets]))
  | switch u cases default =>
    obtain ⟨hread, hto⟩ := hlook u rfl fun target hfit => by
      rw [EdgeFits, hterm] at hfit
      exact hfit
    refine .switch hread fun o ho => ?_
    have hmap : (Term.switch u (cases.map fun k => { k with target := k.target.map (route b) })
        (default.map (route b))).targets =
        (Term.switch u cases default).targets.map (Option.map (route b)) := by
      simp [Term.targets, Function.comp_def]
    rw [hmap] at ho
    obtain ⟨o', ho', rfl⟩ := mem_map.1 ho
    exact hto o' ho'
  | unreachable => exact .unreachable

-- --------------------------------------------------------------- functions

/-- The plan can be followed through an old block. -/
theorem ahead_old {block' : Block} (hblock' : g.block? b = some block') :
    Ahead c.sigs (rolesOf c) (planOf c l f g route front) g block'.term block'.code
      (startHolding c l f (front b) block) := by
  obtain ⟨block'', hsome, -, hcode, hterm⟩ := h.block_eq hblock
  cases hblock'.symm.trans hsome
  rw [hcode, hterm]
  have hmem := Array.mem_of_getElem? hblock
  have hplain : ∀ x ∈ block.code, x ∈ f.instrs ∧ checkStage .lowered block.id x = .ok () ∧
      ∀ d, x.def? = some d → d ∉ x.uses := fun x hx =>
    ⟨mem_flatMap.2 ⟨block, Array.mem_toList_iff.2 hmem, hx⟩, h.valid.staged block hmem x hx,
      fun d hd => not_mem_uses_of_def h.valid.toWellFormed h.valid.supported hb hblock hx hd⟩
  have hleaves : ∀ σ downs, (∀ v, (v, false) ∉ termOperands block.term → downs.count v = 0) →
      (∀ spent, (∀ v, spent.count v = (termOperands block.term).count (v, true)) →
        Ready c (l.outs.getD block.id .empty) (termOperands block.term) downs σ spent) →
      ∀ t', block.term.map (Term.reroute (route b)) = some t' →
        Leaves (rolesOf c) (planOf c l f g route front) g σ t' := by
    intro σ downs hdowns hready t' ht'
    obtain ⟨term, hterm, rfl⟩ := map_eq_some_iff.1 ht'
    rw [hterm] at hdowns hready
    rw [h.id_eq hblock] at hready
    exact h.leaves_term hb hblock hterm hdowns hready
  have hbody := (ahead_countCode (fun v hv => h.tracked_of_out hv) hleaves h.aliases
    h.valid.nodup hplain).2
  refine ahead_decs (front b) (fun v _ => Nat.le_add_left _ _) fun σ₁ hσ₁ => ?_
  refine ahead_decs (unusedIn c l f block) (fun v _ => ?_) fun σ₂ hσ₂ => hbody σ₂ fun v => ?_
  · rw [hσ₁, startHolding]
    dsimp only
    omega
  · rw [hσ₂, hσ₁, startHolding]
    dsimp only
    rw [Nat.add_sub_cancel, Nat.add_sub_cancel]

end

/-- The plan can be followed through a block on an edge. -/
theorem ahead_hop {p : BlockId} (hp : f.Reachable p)
    (ht : t ∈ f.successors p) (hne : route p t ≠ t) {block' : Block}
    (hblock' : g.block? (route p t) = some block') :
    Ahead c.sigs (rolesOf c) (planOf c l f g route front) g block'.term block'.code
      (hopHolding l block') := by
  cases hblock'.symm.trans (h.hop_block hp ht hne)
  have hreach : f.Reachable t := .edge hp ht
  have hentry : t ≠ f.entry := fun he => h.valid.entry_not_successor (he ▸ ht)
  obtain ⟨target, htarget⟩ := exists_block_of_reachable h.valid.toWellFormed hreach
  have hparams := h.params_of_hop ht hne htarget
  change Ahead c.sigs (rolesOf c) _ g (some (.jump (some t) [])) ((gap l p t).map .dec) _
  rw [← append_nil ((gap l p t).map Instr.dec)]
  refine ahead_decs (gap l p t) (fun v _ => ?_) fun σ hσ t' ht' => ?_
  · rw [own_hop]
    exact Nat.le_add_left _ _
  · cases ht'
    obtain ⟨block'', hsome, hparams'', -, -⟩ := h.block_eq htarget
    refine .jump trivial fun b' block₁ hb' hblock₁ => ?_
    cases hb'
    cases hblock₁.symm.trans hsome
    rw [hparams'', hparams]
    refine ⟨rfl, nodup_nil, fun q hq => absurd hq not_mem_nil, fun b'' hb'' => ?_⟩
    cases hb''
    refine ⟨_, planOf_old hreach htarget, fun x _ _ => ?_, fun x q hq => (by cases hq)⟩
    rw [Holding.gainAll, Holding.spendAll, foldl_nil, foldl_nil, hσ, own_hop, startHolding]
    dsimp only
    rw [h.own_start hreach hentry htarget, h.front_of_hop ht hne, hparams]
    simp

theorem front_entry : front f.entry = [] := by
  have hcounted : WellFormed (countBlocks c l f) :=
    alike_countBlocks.wellFormed h.valid.toWellFormed
  exact map_eq_nil_iff.1 ((h.released f.entry).1 hcounted.entryFree)

/-- At the start of the function its parameters own what they hold, or are
borrowed. -/
theorem starts (hblock : f.block? f.entry = some block) :
    Starts (rolesOf c) g (startHolding c l f (front f.entry) block) := by
  have hparams : g.params = f.params := h.routing.params
  have hnd : (f.params.map (·.var)).Nodup := (nodup_append.1 h.valid.nodup).1
  have hstart : startVars f block = f.params.map (·.var) := by
    rw [startVars, h.id_eq hblock, if_pos rfl]
  have hfront := h.front_entry
  have hlive : ∀ v, (bodyOf c l block).live.contains v = true → c.isTracked v = true := by
    intro v hv
    by_contra hno
    have hin := (h.in_iff (v := v) .entry hblock).2 ⟨fun hp => hno hp.1, hv⟩
    exact hno (h.tracked_of_in hin)
  have hderived : ∀ p ∈ f.params, c.derived.contains p.var = true ↔ p.mode = .borrowed := by
    intro p hp
    rw [h.aliases]
    constructor
    · rintro ⟨q, hq, hmode, hleads⟩
      have hvar := (Borrow.leads_param_iff h.valid.nodup hp).1 hleads
      rwa [inj_on_of_nodup_map hnd hp hq hvar.symm]
    · exact fun hmode => ⟨p, hp, hmode, .param hp⟩
  have hown : ∀ p ∈ f.params, (startHolding c l f (front f.entry) block).own p.var =
      (c.isTracked p.var).toNat := by
    intro p hp
    rw [startHolding, hfront, unusedIn, hstart]
    dsimp only
    rw [(hnd.filter _).count, count_nil]
    cases ht : c.isTracked p.var with
    | false =>
      have hno := Bool.eq_false_iff.2 fun hv => Bool.false_ne_true (ht.symm.trans (hlive p.var hv))
      rw [hno, if_neg]
      · rfl
      · rw [mem_filter, ht]
        simp
    | true =>
      have hin : p.var ∈ f.params.map (·.var) := mem_map_of_mem hp
      cases hl : (bodyOf c l block).live.contains p.var with
      | true =>
        rw [if_neg]
        · rfl
        · rw [mem_filter, hl]
          simp
      | false =>
        rw [if_pos]
        · rfl
        · rw [mem_filter, hl, ht]
          exact ⟨hin, rfl⟩
  refine ⟨hparams ▸ hnd, fun p _ => id, fun p hp hmode => ?_, fun p hp hmode => ?_, fun x => rfl⟩
  · rw [hparams] at hp
    have hno : c.derived.contains p.var = false :=
      Bool.eq_false_iff.2 fun hv => hmode ((hderived p hp).1 hv)
    refine ⟨hno, fun hc => ?_⟩
    rw [hown p hp, tracked_iff.2 ⟨hc, hno⟩]
    rfl
  · rw [hparams] at hp
    have hyes : c.derived.contains p.var = true := (hderived p hp).2 hmode
    refine ⟨hyes, ?_⟩
    have hno : c.isTracked p.var = false :=
      Bool.eq_false_iff.2 fun hv => Bool.false_ne_true ((tracked_iff.1 hv).2.symm.trans hyes)
    rw [hown p hp, hno]
    rfl

/-- A function with its counts follows its plan. -/
theorem follows : Follows c.sigs (rolesOf c) (planOf c l f g route front) g := by
  refine ⟨?_, fun b block' σ hblock' hσ => ?_⟩
  · obtain ⟨block, hblock⟩ := h.valid.entry
    have hentry : g.entry = f.entry := h.routing.entry
    refine ⟨_, ?_, h.starts hblock⟩
    rw [hentry]
    exact planOf_old .entry hblock
  · rw [planOf] at hσ
    split at hσ
    · rename_i hb
      obtain ⟨block, hblock, rfl⟩ := map_eq_some_iff.1 hσ
      exact h.ahead_old hb hblock hblock'
    · rename_i hold
      split at hσ
      · rename_i hnew
        obtain ⟨p, t, hp, ht, rfl⟩ := hnew
        rw [hblock'] at hσ
        cases hσ
        refine h.ahead_hop hp ht (fun he => hold ?_) hblock'
        rw [he]
        exact .edge hp ht
      · cases hσ

end Counted

end RefCount.Ownership
