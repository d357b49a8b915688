/-
The search for live variables ends in a solution. What is found for a block
that can be reached is what the equations say: live at its end is what is live
at the start of any successor, and live at its start is what the block makes
of that. What is found for any other block may be less, but never more.

# The argument

The sets only grow, because they start from nothing and each turn replaces a
set by what the equations say of sets that were there before (`Below`). A
block whose equations may fail is waiting: a turn restores the equations of
its block, and the only equations that it may break are those of the blocks
that lead there, which then wait (`Settled`). When no block waits, all
equations hold. Which block comes next does not matter.

Each variable comes to a block once and makes at most all blocks wait, so that
the search ends within the turns that it is given (`Search.cost`).
-/
import Mathlib
import RefCount.Liveness
import RefCount.Proofs.BitSet
import RefCount.Proofs.Ir.Order
import RefCount.Proofs.Outcome
import RefCount.Proofs.Queue

namespace RefCount

open Ir List Except Transfer

namespace Liveness

variable {f : Func} {track : Var → Bool} {q : Queue}
variable {t : Transfer} {out : BitSet} {P : Var → Prop} {ts : Array Transfer}

-- ======== equations

/-- Whether a set of an array has a member. -/
def Has (sets : Array BitSet) (b : BlockId) (v : Var) : Prop :=
  (sets.getD b .empty).contains v = true

/-- Whether a variable is live at the start of a successor. -/
def HasNext (f : Func) (ins : Array BitSet) (b : BlockId) (v : Var) : Prop :=
  ∃ t ∈ f.successors b, Has ins t v

/-- Whether a variable is live before code, given what is live after it. -/
def Passes (t : Transfer) (P : Var → Prop) (v : Var) : Prop :=
  t.gen.contains v = true ∨ P v ∧ t.kill.contains v = false

variable {ins outs : Array BitSet} {b c : BlockId} {v : Var}

theorem passes_apply :
    (t.apply out).contains v = true ↔ Passes t (fun v => out.contains v = true) v := by
  unfold apply Passes
  rw [BitSet.contains_union, BitSet.contains_diff]
  simp only [Bool.or_eq_true, Bool.and_eq_true, Bool.not_eq_true']
  exact or_comm

theorem Passes.mono {Q : Var → Prop} (h : Passes t P v) (hPQ : ∀ v, P v → Q v) :
    Passes t Q v := h.imp id (And.imp (hPQ v) id)

/-- What is live at the end of a block, as it is computed. -/
theorem contains_outOf (h : outOf f ins b = .ok out) :
    out.contains v = true ↔ HasNext f ins b v := by
  have hfold := foldlM_ok_nil
    (P := fun (done : List BlockId) (out : BitSet) =>
      out.contains v = true ↔ ∃ t ∈ done, Has ins t v)
    (fun done t out out' hout ht => by
      split at ht
      · next i hi =>
        cases ht
        rw [BitSet.contains_union, Bool.or_eq_true, hout]
        simp only [mem_append, mem_singleton, or_and_right, exists_or,
          exists_eq_left, Has, Array.getD_eq_getD_getElem?, hi, Option.getD_some]
      · cases ht)
    (by simp) h
  exact hfold

theorem passes_outOf (h : outOf f ins b = .ok out) :
    (t.apply out).contains v = true ↔ Passes t (HasNext f ins b) v := by
  rw [passes_apply]
  exact ⟨fun ht => ht.mono fun v => (contains_outOf h).1,
    fun ht => ht.mono fun v => (contains_outOf h).2⟩

theorem has_setIfInBounds {sets : Array BitSet} {s : BitSet} (hb : b < sets.size) :
    Has (sets.setIfInBounds b s) c v ↔ if c = b then s.contains v = true else Has sets c v := by
  unfold Has
  rw [getD_setIfInBounds hb]
  split_ifs <;> rfl

-- ======== blocks

section Blocks

variable {t : Transfer} {P : Var → Prop}
variable {u : Var} {us : List Var}

theorem passes_useBefore :
    Passes (t.useBefore track u) P v ↔ (track u = true ∧ v = u) ∨ Passes t P v := by
  unfold useBefore Passes
  split
  · next hu => simp [hu, or_assoc]
  · next hu => simp [hu]

theorem passes_defBefore :
    Passes (t.defBefore track u) P v ↔ ¬(track u = true ∧ v = u) ∧ Passes t P v := by
  unfold defBefore Passes
  split
  · next hu =>
    by_cases hv : v = u
    · simp [hv, hu]
    · simp [hv]
  · next hu => simp [hu]

theorem passes_foldl_useBefore : Passes (us.foldl (useBefore track) t) P v ↔
      (track v = true ∧ v ∈ us) ∨ Passes t P v := by
  induction us generalizing t with
  | nil => simp
  | cons u us ih =>
    rw [foldl_cons, ih, passes_useBefore, mem_cons]
    constructor
    · rintro (⟨hv, hus⟩ | ⟨hu, rfl⟩ | h)
      · exact .inl ⟨hv, .inr hus⟩
      · exact .inl ⟨hu, .inl rfl⟩
      · exact .inr h
    · rintro (⟨hv, rfl | hus⟩ | h)
      · exact .inr (.inl ⟨hv, rfl⟩)
      · exact .inl ⟨hv, hus⟩
      · exact .inr (.inr h)

theorem passes_foldl_defBefore : Passes (us.foldl (defBefore track) t) P v ↔
      ¬(track v = true ∧ v ∈ us) ∧ Passes t P v := by
  induction us generalizing t with
  | nil => simp
  | cons u us ih =>
    rw [foldl_cons, ih, passes_defBefore, mem_cons]
    constructor
    · rintro ⟨hus, hu, h⟩
      refine ⟨?_, h⟩
      rintro ⟨hv, rfl | hm⟩
      · exact hu ⟨hv, rfl⟩
      · exact hus ⟨hv, hm⟩
    · rintro ⟨hn, h⟩
      refine ⟨fun ⟨hv, hm⟩ => hn ⟨hv, .inr hm⟩, ?_, h⟩
      rintro ⟨hu, rfl⟩
      exact hn ⟨hu, .inl rfl⟩

/-- What is live before an instruction: what it uses, and what is live after
it and not defined by it. -/
theorem passes_instrBefore {x : Instr} :
    Passes (t.instrBefore track x) P v ↔ (track v = true ∧ v ∈ x.uses) ∨
      ¬(track v = true ∧ x.def? = some v) ∧ Passes t P v := by
  unfold instrBefore
  rw [passes_foldl_useBefore]
  cases hx : x.def? with
  | none => simp
  | some d =>
    rw [passes_defBefore]
    have heq : (track d = true ∧ v = d) ↔ (track v = true ∧ some d = some v) := by
      constructor
      · rintro ⟨hd, rfl⟩
        exact ⟨hd, rfl⟩
      · rintro ⟨hv, he⟩
        cases he
        exact ⟨hv, rfl⟩
    rw [heq]

/-- Only tracked variables are used. -/
theorem track_of_gen {block : Block}
    (hv : (ofBlock track block).gen.contains v = true) : track v = true := by
  have hcode : ∀ code : List Instr, ∀ t : Transfer,
      (Passes t (fun _ => False) v → track v = true) →
      Passes (code.foldr (instrBefore track) t) (fun _ => False) v →
      track v = true := by
    intro code t ht
    induction code with
    | nil => exact ht
    | cons x code ih =>
      intro h
      rw [foldr_cons] at h
      rcases passes_instrBefore.1 h with ⟨hv, -⟩ | ⟨-, h⟩
      · exact hv
      · exact ih h
  have hpass : Passes (ofBlock track block) (fun _ => False) v := .inl hv
  unfold ofBlock at hpass
  refine hcode block.code _ (fun h => ?_) (passes_foldl_defBefore.1 hpass).2
  rcases passes_foldl_useBefore.1 h with ⟨hv, -⟩ | h
  · exact hv
  · rcases h with h | ⟨h, -⟩
    · simp at h
    · exact h.elim

end Blocks

-- ======== search

/-- What the search comes to: the blocks that it looks at, and the variables
that it finds at their starts. It looks at the blocks of the order and at every
block that leads to one where it has found a variable. -/
inductive Sees (f : Func) (ts : Array Transfer) : BlockId → Option Var → Prop
  | start {b : BlockId} (hb : b ∈ f.postorder) : Sees f ts b none
  | back {b t : BlockId} {v : Var} (ht : t ∈ f.successors b) (h : Sees f ts t (some v)) :
      Sees f ts b none
  | use {b : BlockId} {v : Var} (hb : Sees f ts b none)
      (h : (ts.getD b default).gen.contains v = true) : Sees f ts b (some v)
  | pass {b t : BlockId} {v : Var} (hkill : (ts.getD b default).kill.contains v = false)
      (ht : t ∈ f.successors b) (h : Sees f ts t (some v)) : Sees f ts b (some v)

/-- The sets are of blocks, and what they hold the equations say too. -/
structure Below (f : Func) (ts : Array Transfer) (l : Liveness) : Prop where
  sizeIns : l.ins.size = f.blocks.size
  sizeOuts : l.outs.size = f.blocks.size
  ins : ∀ b v, Has l.ins b v → Passes (ts.getD b default) (Has l.outs b) v
  outs : ∀ b v, Has l.outs b v → HasNext f l.ins b v
  seen : ∀ b v, Has l.ins b v → Sees f ts b (some v)

/-- Whether a block is looked at, given what has been found. -/
def Looked (f : Func) (l : Liveness) (b : BlockId) : Prop :=
  b ∈ f.postorder ∨ ∃ v, HasNext f l.ins b v

theorem Below.sees {ts : Array Transfer} {l : Liveness} (h : Below f ts l) (hb : Looked f l b) :
    Sees f ts b none := by
  rcases hb with hb | ⟨v, t, ht, hv⟩
  · exact .start hb
  · exact .back ht (h.seen t v hv)

theorem Below.ins_next {l : Liveness} (h : Below f ts l) (hv : Has l.ins b v) :
    Passes (ts.getD b default) (HasNext f l.ins b) v :=
  (h.ins b v hv).mono (h.outs b)

theorem Below.sees_some {l : Liveness} (h : Below f ts l) (hb : Looked f l b)
    (hv : Passes (ts.getD b default) (HasNext f l.ins b) v) : Sees f ts b (some v) := by
  rcases hv with hv | ⟨⟨t, ht, hv⟩, hkill⟩
  · exact .use (h.sees hb) hv
  · exact .pass hkill ht (h.seen t v hv)

/-- What the equations say of a block has been found. -/
structure SolvedAt (f : Func) (ts : Array Transfer) (l : Liveness) (b : BlockId) : Prop where
  outs : ∀ v, HasNext f l.ins b v → Has l.outs b v
  ins : ∀ v, Passes (ts.getD b default) (Has l.outs b) v → Has l.ins b v

/-- Blocks that wait are in the queue, and it holds only blocks of some. -/
structure Queued (f : Func) (X : BlockId → Prop) (s : Search q) : Prop where
  size : s.isWaiting.size = f.blocks.size
  mem : ∀ b, s.isWaiting.getD b false = true → b ∈ q.toList s.waiting
  lt : ∀ b ∈ q.toList s.waiting, b < f.blocks.size
  all : ∀ b ∈ q.toList s.waiting, X b

/-- Every block that is looked at either waits or is solved. -/
structure Settled (f : Func) (ts : Array Transfer) (s : Search q) : Prop where
  below : Below f ts s.found
  queued : Queued f (Looked f s.found) s
  solved : ∀ b, Looked f s.found b →
    s.isWaiting.getD b false = true ∨ SolvedAt f ts s.found b

section Push

variable {s : Search q} {X : BlockId → Prop}

theorem found_foldl_push (q : Queue) (bs : List BlockId) (s : Search q) :
    (bs.foldl (Search.push q) s).found = s.found := by
  induction bs generalizing s with
  | nil => rfl
  | cons c bs ih =>
    rw [foldl_cons, ih]
    unfold Search.push
    split <;> rfl

/-- Letting a block wait. -/
theorem push_spec (hq : q.Lawful) (hs : Queued f X s) (hb : b < f.blocks.size) (hX : X b) :
    Queued f X (s.push q b) ∧ (s.push q b).isWaiting.getD b false = true ∧
      ∀ c, s.isWaiting.getD c false = true → (s.push q b).isWaiting.getD c false = true := by
  unfold Search.push
  split
  · next hw => exact ⟨hs, hw, fun _ hc => hc⟩
  · have hget : ∀ c, (s.isWaiting.setIfInBounds b true).getD c false =
        (decide (c = b) || s.isWaiting.getD c false) := by
      intro c
      rw [getD_setIfInBounds (hs.size ▸ hb)]
      split <;> simp [*]
    have hperm := hq.push s.waiting b
    refine ⟨⟨by simp [hs.size], fun c hc => ?_, fun c hc => ?_, fun c hc => ?_⟩, ?_,
      fun c hc => ?_⟩
    · rw [hperm.mem_iff, mem_cons]
      dsimp only at hc
      rw [hget, Bool.or_eq_true, decide_eq_true_eq] at hc
      exact hc.imp id (hs.mem c)
    · rw [hperm.mem_iff, mem_cons] at hc
      rcases hc with rfl | hc
      · exact hb
      · exact hs.lt c hc
    · rw [hperm.mem_iff, mem_cons] at hc
      rcases hc with rfl | hc
      · exact hX
      · exact hs.all c hc
    · dsimp only
      rw [hget]
      simp
    · dsimp only
      rw [hget, hc, Bool.or_true]

/-- Letting blocks wait. -/
theorem foldl_push_spec (hq : q.Lawful) : ∀ {bs : List BlockId} {s : Search q}, Queued f X s →
    (∀ b ∈ bs, b < f.blocks.size ∧ X b) →
    Queued f X (bs.foldl (Search.push q) s) ∧
      (∀ b ∈ bs, (bs.foldl (Search.push q) s).isWaiting.getD b false = true) ∧
      ∀ c, s.isWaiting.getD c false = true →
        (bs.foldl (Search.push q) s).isWaiting.getD c false = true := by
  intro bs
  induction bs with
  | nil => exact fun hs _ => ⟨hs, fun _ hb => absurd hb not_mem_nil, fun _ hc => hc⟩
  | cons b bs ih =>
    intro s hs hlt
    obtain ⟨hb, hX⟩ := hlt b (.head _)
    obtain ⟨hs₁, hb₁, hkeep₁⟩ := push_spec hq hs hb hX
    obtain ⟨hs₂, hbs₂, hkeep₂⟩ := ih hs₁ fun c hc => hlt c (mem_cons_of_mem b hc)
    refine ⟨hs₂, fun c hc => ?_, fun c hc => hkeep₂ c (hkeep₁ c hc)⟩
    rcases mem_cons.1 hc with rfl | hc
    · exact hkeep₂ c hb₁
    · exact hbs₂ c hc

end Push

section Turn

variable {s s' : Search q} {ts : Array Transfer}
variable {G : Finset Var} {l : Liveness}

/-- Blocks that lead somewhere are blocks. -/
theorem lt_of_mem_preds (hid : f.Keyed) (hc : c ∈ f.preds b) : c < f.blocks.size := by
  obtain ⟨block, hblock, rfl⟩ := mem_map.1 hc
  obtain ⟨i, hi⟩ := Array.mem_iff_getElem?.1 (Array.mem_toList_iff.1 (mem_filter.1 hblock).1)
  rw [hid i block hi]
  exact Func.block_lt hi

/-- A larger set is live at the starts of more blocks. -/
theorem HasNext.mono {ins' : Array BitSet} (h : HasNext f ins b v)
    (hle : ∀ c v, Has ins c v → Has ins' c v) : HasNext f ins' b v := by
  obtain ⟨t, ht, hv⟩ := h
  exact ⟨t, ht, hle t v hv⟩

/-- What a turn at a block does: the block's sets become what the equations say
of the sets before. -/
structure Updated (f : Func) (ts : Array Transfer) (b : BlockId) (l l' : Liveness) : Prop where
  sizeIns : l'.ins.size = l.ins.size
  sizeOuts : l'.outs.size = l.outs.size
  ins : ∀ c v, Has l'.ins c v ↔
    if c = b then Passes (ts.getD b default) (HasNext f l.ins b) v else Has l.ins c v
  outs : ∀ c v, Has l'.outs c v ↔ if c = b then HasNext f l.ins b v else Has l.outs c v

section Updated

variable {l' : Liveness} (hu : Updated f ts b l l')
include hu

theorem Updated.grows (hl : Below f ts l) (c : BlockId) (v : Var) (hv : Has l.ins c v) :
    Has l'.ins c v := by
  rw [hu.ins]
  split
  · next he => exact hl.ins_next (he ▸ hv)
  · exact hv

theorem Updated.below (hl : Below f ts l) (hlook : Looked f l b) : Below f ts l' := by
  refine ⟨hu.sizeIns.trans hl.sizeIns, hu.sizeOuts.trans hl.sizeOuts, fun c v hc => ?_,
    fun c v hc => ?_, fun c v hc => ?_⟩
  · rw [hu.ins] at hc
    split at hc
    · next he =>
      subst he
      exact hc.mono fun v hv => (hu.outs c v).2 (by rwa [if_pos rfl])
    · next he => exact (hl.ins c v hc).mono fun v hv => (hu.outs c v).2 (by rwa [if_neg he])
  · rw [hu.outs] at hc
    split at hc
    · next he => exact he ▸ hc.mono (hu.grows hl)
    · exact (hl.outs c v hc).mono (hu.grows hl)
  · rw [hu.ins] at hc
    split at hc
    · next he => exact he ▸ hl.sees_some hlook hc
    · exact hl.seen c v hc

/-- A block for which no more comes from its successors is solved after the
turn, if it was before or is the block of the turn. -/
theorem Updated.solved (hnext : ∀ v, HasNext f l'.ins c v → HasNext f l.ins c v)
    (hc : c ≠ b → SolvedAt f ts l c) : SolvedAt f ts l' c := by
  by_cases hcb : c = b
  · subst hcb
    refine ⟨fun v hv => (hu.outs c v).2 ?_, fun v hv => (hu.ins c v).2 ?_⟩
    · rw [if_pos rfl]
      exact hnext v hv
    · rw [if_pos rfl]
      exact hv.mono fun v hv => by simpa [hu.outs] using hv
  · refine ⟨fun v hv => (hu.outs c v).2 ?_, fun v hv => (hu.ins c v).2 ?_⟩
    · rw [if_neg hcb]
      exact (hc hcb).outs v (hnext v hv)
    · rw [if_neg hcb]
      exact (hc hcb).ins v (hv.mono fun v hv => by simpa [hu.outs, hcb] using hv)

end Updated

/-- What is live at the end of a block can be found. -/
theorem outOf_ok (htargets : ∀ t ∈ f.successors b, t < f.blocks.size)
    (hsize : ins.size = f.blocks.size) : ∃ out, outOf f ins b = .ok out := by
  unfold outOf
  generalize BitSet.empty = out
  revert htargets
  induction f.successors b generalizing out with
  | nil => exact fun _ => ⟨out, rfl⟩
  | cons t ts ih =>
    intro htargets
    have ht : t < ins.size := by
      rw [hsize]
      exact htargets t (.head _)
    rw [foldlM_cons, Array.getElem?_eq_getElem ht]
    exact ih _ fun u hu => htargets u (mem_cons_of_mem t hu)

/-- The predecessors of a block wait after its turn if something new is live at
its start. -/
theorem turn_updates (htargets : ∀ t ∈ f.successors b, t < f.blocks.size)
    (hb : b < f.blocks.size) (hl : Below f ts s.found) : ∃ l, Updated f ts b s.found l ∧
      (s.turn q f ts b = .ok { s with found := l } ∧
          (∀ v, Has l.ins b v → Has s.found.ins b v) ∨
        s.turn q f ts b = .ok ((f.preds b).foldl (Search.push q) { s with found := l }) ∧
          ∃ v, Has l.ins b v ∧ ¬Has s.found.ins b v) := by
  obtain ⟨out, hout⟩ := outOf_ok htargets hl.sizeIns
  unfold Search.turn
  dsimp only
  rw [hout]
  simp only [Bind.bind, Except.bind]
  have hpass : ∀ v, ((ts.getD b default).apply out).contains v = true ↔
      Passes (ts.getD b default) (HasNext f s.found.ins b) v := fun v => passes_outOf hout
  have houts : ∀ c v, Has (s.found.outs.setIfInBounds b out) c v ↔
      if c = b then HasNext f s.found.ins b v else Has s.found.outs c v := by
    intro c v
    rw [has_setIfInBounds (hl.sizeOuts ▸ hb), contains_outOf hout]
  by_cases hsame : ((ts.getD b default).apply out).same (s.found.ins.getD b .empty) = true
  · rw [if_pos hsame]
    refine ⟨⟨s.found.ins, _, s.found.iterations + 1⟩,
      ⟨rfl, Array.size_setIfInBounds, fun c v => ?_, houts⟩, .inl ⟨rfl, fun _ hv => hv⟩⟩
    split
    · next he => rw [← hpass, BitSet.contains_of_same hsame, he, Has]
    · exact .rfl
  · have hins : ∀ c v, Has (s.found.ins.setIfInBounds b ((ts.getD b default).apply out)) c v ↔
        if c = b then Passes (ts.getD b default) (HasNext f s.found.ins b) v
        else Has s.found.ins c v := by
      intro c v
      rw [has_setIfInBounds (hl.sizeIns ▸ hb), hpass]
    rw [if_neg hsame]
    refine ⟨⟨_, _, s.found.iterations + 1⟩,
      ⟨Array.size_setIfInBounds, Array.size_setIfInBounds, hins, houts⟩, .inr ⟨rfl, ?_⟩⟩
    by_contra hno
    push Not at hno
    refine hsame (BitSet.same_of_contains fun v => Bool.eq_iff_iff.2 ⟨fun hv => ?_, fun hv => ?_⟩)
    · exact hno v ((hins b v).2 (by rwa [if_pos rfl, ← hpass]))
    · exact (hpass v).2 (hl.ins_next hv)

-- ======== cost

/-- The variables of a set that have come to blocks. -/
def marks (f : Func) (G : Finset Var) (l : Liveness) : Finset (BlockId × Var) :=
  (Finset.range f.blocks.size ×ˢ G).filter fun p => (l.ins.getD p.1 .empty).contains p.2 = true

theorem mem_marks : (b, v) ∈ marks f G l ↔ (b < f.blocks.size ∧ v ∈ G) ∧ Has l.ins b v := by
  rw [marks, Finset.mem_filter, Finset.mem_product, Finset.mem_range]
  rfl

theorem Updated.marks_subset {l' : Liveness} (hu : Updated f ts b l l') (hl : Below f ts l) :
    marks f G l ⊆ marks f G l' := by
  rintro ⟨c, v⟩ hv
  exact mem_marks.2 ((mem_marks.1 hv).imp id (hu.grows hl c v))

theorem card_marks_le : (marks f G l).card ≤ f.blocks.size * G.card := by
  refine (Finset.card_le_card (Finset.filter_subset _ _)).trans ?_
  rw [Finset.card_product, Finset.card_range]

/-- How many turns are left at most: the blocks that wait, and all of them for
each variable that may still come to a block. -/
def Search.cost (f : Func) (G : Finset Var) (s : Search q) : Nat :=
  (q.toList s.waiting).length + f.blocks.size * (f.blocks.size * G.card - (marks f G s.found).card)

theorem size_push_le (hq : q.Lawful) (b : BlockId) :
    (q.toList (s.push q b).waiting).length ≤ (q.toList s.waiting).length + 1 := by
  unfold Search.push
  split
  · exact Nat.le_succ _
  · exact (hq.push s.waiting b).length_eq.le

theorem size_foldl_push_le (hq : q.Lawful) (bs : List BlockId) (s : Search q) :
    (q.toList (bs.foldl (Search.push q) s).waiting).length ≤
      (q.toList s.waiting).length + bs.length := by
  induction bs generalizing s with
  | nil => exact le_rfl
  | cons b bs ih =>
    have hstep := size_push_le (s := s) hq b
    have hrest := ih (s.push q b)
    rw [foldl_cons, length_cons]
    omega

theorem length_preds_le (f : Func) (b : BlockId) : (f.preds b).length ≤ f.blocks.size := by
  unfold Func.preds
  rw [length_map]
  exact (length_filter_le _ f.blocks.toList).trans Array.length_toList.le

/-- A turn solves its block, and every block that it may unsettle waits. -/
theorem turn_spec (hq : q.Lawful) (hid : f.Keyed)
    (htargets : ∀ t ∈ f.successors b, t < f.blocks.size) (hb : b < f.blocks.size)
    (hlook : Looked f s.found b) (hbelow : Below f ts s.found)
    (hqueued : Queued f (Looked f s.found) s) (hsolved : ∀ c, Looked f s.found c → c ≠ b →
      s.isWaiting.getD c false = true ∨ SolvedAt f ts s.found c)
    (hG : ∀ b v, Sees f ts b (some v) → v ∈ G) :
    ∃ s', s.turn q f ts b = .ok s' ∧ Settled f ts s' ∧ s'.cost f G ≤ s.cost f G := by
  obtain ⟨l, hu, hturn⟩ := turn_updates (q := q) htargets hb hbelow
  have hlooked : ∀ c ∈ q.toList s.waiting, Looked f l c := fun c hc =>
    (hqueued.all c hc).imp id fun ⟨v, hv⟩ => ⟨v, hv.mono (hu.grows hbelow)⟩
  have hrest : ∀ c, Looked f l c → (∀ v, HasNext f l.ins c v → HasNext f s.found.ins c v) →
      s.isWaiting.getD c false = true ∨ SolvedAt f ts l c := by
    intro c hX hnext
    by_cases hcb : c = b
    · exact .inr (hu.solved hnext fun hne => absurd hcb hne)
    · have hX' : Looked f s.found c := hX.imp id fun ⟨v, hv⟩ => ⟨v, hnext v hv⟩
      exact (hsolved c hX' hcb).imp id fun hc => hu.solved hnext fun _ => hc
  rcases hturn with ⟨hturn, hold⟩ | ⟨hturn, u, hmem, hnew⟩
  · -- what is live at the starts of blocks is as before
    have hins : ∀ c v, Has l.ins c v → Has s.found.ins c v := by
      intro c v hv
      by_cases hcb : c = b
      · exact hcb ▸ hold v (hcb ▸ hv)
      · rwa [hu.ins, if_neg hcb] at hv
    refine ⟨_, hturn, ⟨hu.below hbelow hlook, ⟨hqueued.size, hqueued.mem, hqueued.lt, hlooked⟩,
      fun c hX => hrest c hX fun v hv => hv.mono hins⟩, ?_⟩
    · have hle := Finset.card_le_card (hu.marks_subset (G := G) hbelow)
      exact Nat.add_le_add_left (Nat.mul_le_mul_left _ (Nat.sub_le_sub_left hle _)) _
  · have hfound := found_foldl_push q (f.preds b) { s with found := l }
    have hqueued₁ : Queued f (Looked f l) { s with found := l } :=
      ⟨hqueued.size, hqueued.mem, hqueued.lt, hlooked⟩
    obtain ⟨hq', hpreds, hkeep⟩ := foldl_push_spec hq hqueued₁ fun c hc =>
      ⟨lt_of_mem_preds hid (b := b) hc, .inr ⟨u, b, (Func.mem_preds_iff hid).1 hc, hmem⟩⟩
    refine ⟨_, hturn, ⟨?_, by rwa [hfound], fun c hX => ?_⟩, ?_⟩
    · rw [hfound]
      exact hu.below hbelow hlook
    · rw [hfound] at hX ⊢
      by_cases hlead : b ∈ f.successors c
      · exact .inl (hpreds c ((Func.mem_preds_iff hid).2 hlead))
      · -- the block is no successor, so nothing changes for the equations
        have hnext : ∀ v, HasNext f l.ins c v → HasNext f s.found.ins c v := by
          rintro v ⟨t, ht, hv⟩
          rw [hu.ins, if_neg (ne_of_mem_of_not_mem ht hlead)] at hv
          exact ⟨t, ht, hv⟩
        exact (hrest c hX hnext).imp (hkeep c) id
    · -- the variable that is new makes up for all the blocks that wait now
      have hseen : u ∈ G := by
        rw [hu.ins, if_pos rfl] at hmem
        exact hG b u (hbelow.sees_some hlook hmem)
      have hlt : (marks f G s.found).card < (marks f G l).card := by
        refine Finset.card_lt_card ⟨hu.marks_subset hbelow, fun hsub => hnew ?_⟩
        exact (mem_marks.1 (hsub (mem_marks.2 ⟨⟨hb, hseen⟩, hmem⟩))).2
      have hle := card_marks_le (f := f) (G := G) (l := l)
      have hsize := (size_foldl_push_le hq (f.preds b) { s with found := l }).trans
        (Nat.add_le_add_left (length_preds_le f b) _)
      have hstep : f.blocks.size * (f.blocks.size * G.card - (marks f G l).card) +
          f.blocks.size ≤ f.blocks.size * (f.blocks.size * G.card - (marks f G s.found).card) := by
        rw [← Nat.mul_succ]
        exact Nat.mul_le_mul_left _ (by omega)
      unfold Search.cost
      rw [hfound]
      dsimp only at hsize ⊢
      omega

/-- Turns end in a solution. -/
theorem run_spec (hq : q.Lawful) (hid : f.Keyed) (htargets : f.Closed)
    (hG : ∀ b v, Sees f ts b (some v) → v ∈ G) :
    ∀ {turns : Nat} {s : Search q}, Settled f ts s → s.cost f G < turns →
    ∃ l, s.run q f ts turns = .ok l ∧ Below f ts l ∧ ∀ b, Looked f l b → SolvedAt f ts l b := by
  intro turns
  induction turns with
  | zero => exact fun _ h => absurd h (Nat.not_lt_zero _)
  | succ turns ih =>
    intro s hs hcost
    unfold Search.run
    cases hpop : q.pop? s.waiting with
    | none =>
      refine ⟨s.found, rfl, hs.below, fun b hX => (hs.solved b hX).resolve_left fun hw => ?_⟩
      have hmem := hs.queued.mem b hw
      rw [hq.pop_none _ hpop] at hmem
      cases hmem
    | some popped =>
      obtain ⟨b, rest⟩ := popped
      have hperm := hq.pop_some _ _ _ hpop
      have hmem := hperm.mem_iff.2 (mem_cons_self (a := b))
      have hb : b < f.blocks.size := hs.queued.lt b hmem
      have hlook : Looked f s.found b := hs.queued.all b hmem
      have hget : ∀ c, (s.isWaiting.setIfInBounds b false).getD c false =
          (!decide (c = b) && s.isWaiting.getD c false) := by
        intro c
        rw [getD_setIfInBounds (hs.queued.size ▸ hb)]
        split <;> simp [*]
      set s₁ : Search q := { s with
        waiting := rest, isWaiting := s.isWaiting.setIfInBounds b false }
      have hqueued : Queued f (Looked f s₁.found) s₁ := by
        refine ⟨by simp [s₁, hs.queued.size], fun c hc => ?_, fun c hc => ?_, fun c hc => ?_⟩
        · rw [hget, Bool.and_eq_true, Bool.not_eq_true', decide_eq_false_iff_not] at hc
          have hmem := hs.queued.mem c hc.2
          rw [hperm.mem_iff, mem_cons] at hmem
          exact hmem.resolve_left hc.1
        · exact hs.queued.lt c (hperm.mem_iff.2 (mem_cons_of_mem b hc))
        · exact hs.queued.all c (hperm.mem_iff.2 (mem_cons_of_mem b hc))
      have hsolved : ∀ c, Looked f s.found c → c ≠ b →
          s₁.isWaiting.getD c false = true ∨ SolvedAt f ts s.found c := by
        intro c hX hcb
        refine (hs.solved c hX).imp (fun hw => ?_) id
        rw [hget, hw]
        simp [hcb]
      have hwait : s₁.cost f G < turns := by
        have hlength := hperm.length_eq
        rw [length_cons] at hlength
        have hfound : s₁.found = s.found := rfl
        have hrest : s₁.waiting = rest := rfl
        unfold Search.cost at hcost ⊢
        rw [hfound, hrest]
        omega
      obtain ⟨s', hturn, hnext, hle⟩ :=
        turn_spec (s := s₁) hq hid (htargets b) hb hlook hs.below hqueued hsolved hG
      obtain ⟨l, hrun, hl⟩ := ih hnext (hle.trans_lt hwait)
      refine ⟨l, ?_, hl⟩
      dsimp only
      rw [hturn]
      exact hrun

end Turn

-- ======== solution

/-- What each block does can be found. -/
theorem transfersOf_ok (hid : f.Keyed) (track : Var → Bool) :
    ∃ ts, transfersOf f track = .ok ts ∧ ts.size = f.blocks.size ∧
      ∀ (b : BlockId) block, f.block? b = some block → ts[b]? = some (ofBlock track block) := by
  have hfold : ∀ (rest done : List Block) (ts₀ : Array Transfer),
      f.blocks.toList = done ++ rest → ts₀.size = f.blocks.size →
      (∀ (i : Nat) block, done[i]? = some block → ts₀[i]? = some (ofBlock track block)) →
      ∃ ts, rest.foldlM (fun (ts : Array Transfer) b => if b.id < ts.size then
        ok (ts.setIfInBounds b.id (.ofBlock track b)) else error Fault.block) ts₀ = .ok ts ∧
        ts.size = f.blocks.size ∧
        ∀ (b : BlockId) block, f.block? b = some block → ts[b]? = some (ofBlock track block) := by
    intro rest
    induction rest with
    | nil =>
      intro done ts₀ hdone hsize hts
      refine ⟨ts₀, rfl, hsize, fun b block hb => hts b block ?_⟩
      rw [append_nil] at hdone
      rw [← hdone, Array.getElem?_toList]
      exact hb
    | cons x rest ih =>
      intro done ts₀ hdone hsize hts
      have hplace : f.block? done.length = some x := by
        unfold Func.block?
        rw [← Array.getElem?_toList, hdone]
        simp
      have hlt : done.length < ts₀.size := by
        rw [hsize]
        exact Func.block_lt hplace
      rw [foldlM_cons, hid _ x hplace, if_pos hlt]
      refine ih (done ++ [x]) _ (by simp [hdone]) (by simp [hsize]) fun i block hi => ?_
      rw [Array.getElem?_setIfInBounds]
      by_cases hi' : done.length = i
      · subst hi'
        rw [if_pos rfl, if_pos hlt]
        rw [getElem?_concat_length] at hi
        rw [Option.some.inj hi]
      · rw [if_neg hi']
        refine hts i block ?_
        rwa [getElem?_append_left] at hi
        have := (List.getElem?_eq_some_iff.1 hi).1
        simp only [length_append, length_singleton] at this
        omega
  unfold transfersOf
  rw [← Array.foldlM_toList]
  exact hfold f.blocks.toList [] _ rfl (by simp) fun i block hi => by simp at hi

/-- What each block does is found under its number. -/
theorem transfersOf_get (hid : f.Keyed) (h : transfersOf f track = .ok ts) {block : Block}
    (hb : f.block? b = some block) : ts.getD b default = ofBlock track block := by
  obtain ⟨ts', hts, -, hget⟩ := transfersOf_ok hid track
  cases hts.symm.trans h
  rw [Array.getD_eq_getD_getElem?, hget b block hb]
  rfl

/-- Whether some way from the start of a block uses a tracked variable before
it defines it. -/
inductive Live (f : Func) (track : Var → Bool) : BlockId → Var → Prop
  | use {b : BlockId} {block : Block} {v : Var} (hb : f.block? b = some block)
      (h : (ofBlock track block).gen.contains v = true) : Live f track b v
  | pass {b t : BlockId} {block : Block} {v : Var} (hb : f.block? b = some block)
      (hkill : (ofBlock track block).kill.contains v = false)
      (ht : t ∈ block.successors) (h : Live f track t v) : Live f track b v

/-- What is live at the start and at the end of every block that can be
reached, by the equations; for any other block what is found is at most
that. -/
structure Solves (f : Func) (track : Var → Bool) (l : Liveness) : Prop where
  outs : ∀ b, f.Reachable b → ∀ v, Has l.outs b v ↔ HasNext f l.ins b v
  outs_le : ∀ b v, Has l.outs b v → HasNext f l.ins b v
  ins : ∀ b, f.Reachable b → ∀ block, f.block? b = some block → ∀ v,
    Has l.ins b v ↔ Passes (.ofBlock track block) (Has l.outs b) v
  ins_le : ∀ b block v, f.block? b = some block → Has l.ins b v →
    Passes (.ofBlock track block) (Has l.outs b) v
  live : ∀ b v, Has l.ins b v → Live f track b v

theorem Live.isTracked (h : Live f track b v) : track v = true := by
  induction h with
  | use _ h => exact track_of_gen h
  | pass _ _ _ _ ih => exact ih

theorem gen_default : (default : Transfer).gen = .empty := rfl

/-- The search ends, and every block that it looks at is solved. -/
theorem computeWith_solved (hq : q.Lawful) (hid : f.Keyed)
    (hentry : f.entry < f.blocks.size) (htargets : f.Closed) (hts : transfersOf f track = .ok ts) :
    ∃ l, computeWith q f track = .ok l ∧ Below f ts l ∧ ∀ b, Looked f l b → SolvedAt f ts l b := by
  unfold computeWith
  rw [hts]
  have hnone : ∀ b v, ¬Has (Array.replicate f.blocks.size BitSet.empty) b v := by
    intro b v
    rw [Has, getD_of_replicate]
    simp
  set start : Search q := ⟨⟨Array.replicate f.blocks.size .empty,
    Array.replicate f.blocks.size .empty, 0⟩, q.empty, Array.replicate f.blocks.size false⟩ with hstart
  have hbelow : Below f ts start.found :=
    ⟨Array.size_replicate, Array.size_replicate, fun b v hv => absurd hv (hnone b v),
      fun b v hv => absurd hv (hnone b v), fun b v hv => absurd hv (hnone b v)⟩
  have hqueued : Queued f (Looked f start.found) start := by
    have hempty : q.toList start.waiting = [] := hq.empty
    refine ⟨Array.size_replicate, fun b hb => ?_, fun b hb => absurd (hempty ▸ hb) not_mem_nil,
      fun b hb => absurd (hempty ▸ hb) not_mem_nil⟩
    rw [getD_of_replicate] at hb
    cases hb
  have hfound := found_foldl_push q f.postorder start
  obtain ⟨hqueued', hall, -⟩ := foldl_push_spec hq hqueued
    fun b hb => ⟨Func.lt_of_mem_postorder (f := f) hb, .inl hb⟩
  have hsettled : Settled f ts (f.postorder.foldl (Search.push q) start) := by
    refine ⟨hfound ▸ hbelow, by rwa [hfound], fun b hb => .inl (hall b ?_)⟩
    rw [hfound] at hb
    exact hb.resolve_right fun ⟨v, t, _, hv⟩ => hnone t v hv
  -- the variables that blocks use, at most as many as their sets have members
  let used : List Var := ts.toList.flatMap fun t => t.gen.toList
  have hG : ∀ b v, Sees f ts b (some v) → v ∈ used.toFinset := by
    intro b v h
    generalize ho : some v = o at h
    induction h with
    | start => cases ho
    | back => cases ho
    | @use b w _ h =>
      cases ho
      rw [Array.getD_eq_getD_getElem?] at h
      cases ht : ts[b]? with
      | none =>
        rw [ht, Option.getD_none, gen_default, BitSet.contains_empty] at h
        cases h
      | some t =>
        rw [ht] at h
        exact mem_toFinset.2 (mem_flatMap.2
          ⟨t, Array.mem_toList_iff.2 (Array.mem_of_getElem? ht), BitSet.mem_toList.2 h⟩)
    | pass _ _ _ ih => exact ih ho
  have hused : used.toFinset.card ≤ ts.foldl (fun n t => n + t.gen.size) 0 := by
    refine (toFinset_card_le used).trans ?_
    simp only [BitSet.size_eq_length]
    rw [length_flatMap, ← Array.foldl_toList, sum_eq_foldl, foldl_map]
  have hcost : Search.cost f used.toFinset (f.postorder.foldl (Search.push q) start) <
      turnBound f ts := by
    have hwait := size_foldl_push_le hq f.postorder start
    have hlength : f.postorder.length ≤ f.blocks.size := by
      rw [Func.postorder, length_reverse]
      exact Func.length_reversePostorder_le f
    have hmul : f.blocks.size * (f.blocks.size * used.toFinset.card -
        (marks f used.toFinset (f.postorder.foldl (Search.push q) start).found).card) ≤
        (ts.foldl (fun n t => n + t.gen.size) 0) * f.blocks.size * f.blocks.size := by
      rw [Nat.mul_comm _ f.blocks.size, Nat.mul_comm _ f.blocks.size]
      refine Nat.mul_le_mul_left _ ((Nat.sub_le _ _).trans ?_)
      exact Nat.mul_le_mul_left _ hused
    have hzero : (q.toList start.waiting).length = 0 := congrArg length hq.empty
    unfold Search.cost turnBound
    dsimp only
    omega
  obtain ⟨l, hrun, hl⟩ := run_spec hq hid htargets hG hsettled hcost
  refine ⟨l, ?_, hl⟩
  show (if f.blocks.size ≤ f.entry then _ else _) = _
  rw [if_neg (not_le.2 hentry)]
  exact hrun

section Solved

variable {ts : Array Transfer} {l : Liveness}

section

variable (hl : Below f ts l) (hs : ∀ b, Looked f l b → SolvedAt f ts l b)
include hl hs

/-- A block that is solved and at most what the equations say is what they
say. -/
theorem has_outs_iff :
    Has l.outs b v ↔ HasNext f l.ins b v :=
  ⟨hl.outs b v, fun h => (hs b (.inr ⟨v, h⟩)).outs v h⟩

/-- What is found is what the search comes to, in whatever order. -/
theorem has_ins_iff :
    Has l.ins b v ↔ Sees f ts b (some v) := by
  have hall : ∀ {b o}, Sees f ts b o → o.elim (Looked f l b) (Has l.ins b) := by
    intro b o h
    induction h with
    | start hb => exact .inl hb
    | @back b t v ht _ ih => exact .inr ⟨v, t, ht, ih⟩
    | @use b v _ h ih => exact (hs b ih).ins v (.inl h)
    | @pass b t v hkill ht _ ih =>
      exact (hs b (.inr ⟨v, t, ht, ih⟩)).ins v (.inr ⟨(has_outs_iff hl hs).2 ⟨t, ht, ih⟩, hkill⟩)
  exact ⟨hl.seen b v, fun h => hall h⟩

end

/-- What the search comes to is live. -/
theorem Sees.live (hid : f.Keyed)
    (hts : transfersOf f track = .ok ts) (hsize : ts.size = f.blocks.size)
    (h : Sees f ts b (some v)) : Live f track b v := by
  generalize ho : some v = o at h
  induction h with
  | start => cases ho
  | back => cases ho
  | @use b w _ h =>
    cases ho
    cases hb : f.block? b with
    | some block =>
      rw [transfersOf_get hid hts hb] at h
      exact .use hb h
    | none =>
      have hnone : ts[b]? = none := Array.getElem?_eq_none (hsize ▸ Array.getElem?_eq_none_iff.1 hb)
      rw [Array.getD_eq_getD_getElem?, hnone, Option.getD_none, gen_default,
        BitSet.contains_empty] at h
      cases h
  | @pass b t w hkill ht _ ih =>
    obtain ⟨block, hb, ht⟩ := Func.exists_of_successor ht
    rw [transfersOf_get hid hts hb] at hkill
    cases ho
    exact .pass hb hkill ht (ih rfl)

end Solved

/-- The search gives a solution, whatever the queue. -/
theorem computeWith_solves (hq : q.Lawful) (hid : f.Keyed)
    (hentry : f.entry < f.blocks.size) (htargets : f.Closed) (track : Var → Bool) :
    ∃ l, computeWith q f track = .ok l ∧ Solves f track l := by
  obtain ⟨ts, hts, hsize, -⟩ := transfersOf_ok hid track
  obtain ⟨l, hrun, hbelow, hsolved⟩ := computeWith_solved hq hid hentry htargets hts
  have hlook : ∀ {b}, f.Reachable b → Looked f l b := by
    intro b hb
    exact .inl (Func.mem_reversePostorder.1
      ((Func.mem_reversePostorder_iff hentry).2 ⟨hb, hb.lt hentry htargets⟩))
  refine ⟨l, hrun, fun b hb v => has_outs_iff hbelow hsolved, hbelow.outs,
    fun b hb block hblock v => ?_, fun b block v hblock hv => ?_,
    fun b v hv => (hbelow.seen b v hv).live hid hts hsize⟩
  · rw [← transfersOf_get hid hts hblock]
    exact ⟨hbelow.ins b v, (hsolved b (hlook hb)).ins v⟩
  · rw [← transfersOf_get hid hts hblock]
    exact hbelow.ins b v hv

/-- What is live is found, and is a solution. -/
theorem compute_solves (hid : f.Keyed)
    (hentry : f.entry < f.blocks.size) (htargets : f.Closed) (track : Var → Bool) :
    ∃ l, compute f track = .ok l ∧ Solves f track l :=
  computeWith_solves (Queue.lawful_byRank _) hid hentry htargets track

end Liveness

end RefCount
