/-
Counts balance. Between any two instructions of a block every variable owns one
reference if it is live there, and none otherwise (`Owns`). Before an instruction
its operands are counted up so that there is a reference for each operand that is
consumed, and one more for each variable that is needed on; after it those that
were only looked at for the last time are counted down (`Balanced`). So the code
of a block can be followed from what is live at its start to its terminator
(`ahead_countCode`).
-/
import Mathlib
import RefCount.Proofs.Borrow.Roots
import RefCount.Proofs.Count.Insert
import RefCount.Proofs.Ownership.Plan

namespace RefCount.Ownership

open Ir RefCount.Count List Option Holding

-- ======== holdings

section Holding

variable {r : Roles} {σ : Holding} {v : Var} {vs : List Var}

theorem own_spend (σ : Holding) (u v : Var) :
    (σ.spend u).own v = σ.own v - if u = v then 1 else 0 := by
  by_cases huv : u = v
  · subst huv
    simp [spend]
  · simp [spend, huv, Ne.symm huv]

theorem own_spendAll (σ : Holding) (vs : List Var) (v : Var) :
    (σ.spendAll vs).own v = σ.own v - vs.count v := by
  induction vs generalizing σ with
  | nil => rfl
  | cons u vs ih =>
    rw [spendAll, foldl_cons, ← spendAll, ih, own_spend, count_cons, Nat.sub_sub, Nat.add_comm]
    simp only [beq_iff_eq]

/-- There is a reference to spend for each variable if it owns enough. -/
theorem covers_of_count (h : ∀ v, r.counted v = true → vs.count v ≤ σ.own v) : σ.Covers r vs := by
  induction vs generalizing σ with
  | nil => trivial
  | cons u vs ih =>
    refine ⟨fun hu => ?_, ih fun v hv => ?_⟩
    · have := h u hu
      rw [count_cons_self] at this
      exact Nat.lt_of_lt_of_le (Nat.succ_pos _) this
    · have := h v hv
      rw [count_cons] at this
      simp only [beq_iff_eq] at this
      rw [own_spend]
      omega

theorem own_gainAll (vs : List Var) (v : Var) : (σ.gainAll r vs).own v =
    if v ∈ vs then (if r.counted v then 1 else 0) else σ.own v := by
  induction vs generalizing σ with
  | nil => rfl
  | cons u vs ih =>
    rw [gainAll, foldl_cons, ← gainAll, ih]
    by_cases hv : v ∈ vs
    · rw [if_pos hv, if_pos (mem_cons_of_mem u hv)]
    · by_cases hvu : v = u
      · subst hvu
        rw [if_neg hv, if_pos mem_cons_self]
        simp [gain]
      · rw [if_neg hv, if_neg (by simp [hvu, hv])]
        simp [gain, hvu]

end Holding

section Ahead

variable {sigs : Signatures} {r : Roles} {S : Plan} {g : Func} {term : Option Term}
  {rest : List Instr}
variable {σ : Holding}

/-- What may be looked at may be counted up. -/
theorem ahead_incs (vs : List Var) (hread : ∀ v ∈ vs, σ.Readable r v)
    (hrest : ∀ σ', (∀ v, σ'.own v = σ.own v + vs.count v) → Ahead sigs r S g term rest σ') :
    Ahead sigs r S g term (vs.map .inc ++ rest) σ := by
  induction vs generalizing σ with
  | nil => exact hrest σ fun v => rfl
  | cons u vs ih =>
    refine ⟨σ.add u, .inc (hread u (.head _)), ih (fun v hv => ?_) fun σ' hσ' => ?_⟩
    · rcases hread v (mem_cons_of_mem u hv) with h | h | h | h
      · exact .inl h
      · exact .inr (.inl h)
      · refine .inr (.inr (.inl ?_))
        by_cases hvu : v = u
        · subst hvu
          simp [add]
        · simpa [add, hvu] using h
      · exact .inr (.inr (.inr h))
    · refine hrest σ' fun v => ?_
      rw [hσ', count_cons]
      by_cases hvu : v = u
      · subst hvu
        simp only [add, Function.update_self, beq_self_eq_true, if_true]
        omega
      · simp [add, hvu, Ne.symm hvu]

/-- What is owned may be counted down. -/
theorem ahead_decs (vs : List Var) (hown : ∀ v, r.counted v = true → vs.count v ≤ σ.own v)
    (hrest : ∀ σ', (∀ v, σ'.own v = σ.own v - vs.count v) → Ahead sigs r S g term rest σ') :
    Ahead sigs r S g term (vs.map .dec ++ rest) σ := by
  induction vs generalizing σ with
  | nil => exact hrest σ fun v => rfl
  | cons u vs ih =>
    have hcovers := covers_of_count hown
    refine ⟨σ.spendAll [u], .dec ⟨hcovers.1, trivial⟩, ih (fun v hv => ?_) fun σ' hσ' => ?_⟩
    · have := hown v hv
      rw [count_cons] at this
      simp only [beq_iff_eq] at this
      rw [own_spendAll, count_singleton]
      simp only [beq_iff_eq]
      omega
    · refine hrest σ' fun v => ?_
      rw [hσ', own_spendAll, count_singleton, count_cons, Nat.sub_sub, Nat.add_comm]

end Ahead

-- ======== operands

section Usages

variable {us : List Usage} {u w : Usage} {v : Var} {consumes : Bool}
variable {ops : List (Var × Bool)}

/-- A usage with one more operand. -/
def moreUse (u : Usage) (consumes : Bool) : Usage :=
  if consumes then { u with consumed := u.consumed + 1 } else { u with borrowed := u.borrowed + 1 }

theorem var_moreUse : (moreUse u consumes).var = u.var := by
  cases consumes <;> rfl

theorem vars_addUse : (addUse us v consumes).map Usage.var =
    if v ∈ us.map Usage.var then us.map Usage.var else us.map Usage.var ++ [v] := by
  induction us with
  | nil => cases consumes <;> rfl
  | cons w us ih =>
    rw [addUse]
    by_cases hw : w.var = v
    · have hin : v ∈ (w :: us).map Usage.var := by
        rw [map_cons, hw]
        exact .head _
      rw [if_pos hin, if_pos hw, map_cons, map_cons]
      exact congrArg (· :: us.map Usage.var) var_moreUse
    · rw [if_neg hw, map_cons, ih, map_cons]
      by_cases hv : v ∈ us.map Usage.var
      · rw [if_pos hv, if_pos (.tail _ hv)]
      · have hno : v ∉ w.var :: us.map Usage.var := by
          rw [mem_cons, not_or]
          exact ⟨Ne.symm hw, hv⟩
        rw [if_neg hv, if_neg hno, cons_append]

/-- One more operand changes the usage of its variable only. -/
theorem mem_addUse (h : u ∈ addUse us v consumes) (hnd : (us.map Usage.var).Nodup) :
    (u ∈ us ∧ u.var ≠ v) ∨ (∃ w ∈ us, w.var = v ∧ u = moreUse w consumes) ∨
      v ∉ us.map Usage.var ∧ u = moreUse ⟨v, 0, 0⟩ consumes := by
  induction us with
  | nil =>
    refine .inr (.inr ⟨not_mem_nil, ?_⟩)
    rw [addUse, mem_singleton] at h
    rw [h]
    cases consumes <;> rfl
  | cons w us ih =>
    obtain ⟨hfree, hnd⟩ := nodup_cons.1 hnd
    rw [addUse] at h
    by_cases hw : w.var = v
    · rw [if_pos hw] at h
      rcases mem_cons.1 h with rfl | h
      · exact .inr (.inl ⟨w, .head _, hw, rfl⟩)
      · refine .inl ⟨mem_cons_of_mem w h, fun hu => hfree ?_⟩
        rw [hw, ← hu]
        exact mem_map_of_mem h
    · rw [if_neg hw] at h
      rcases mem_cons.1 h with rfl | h
      · exact .inl ⟨.head _, hw⟩
      · rcases ih h hnd with ⟨hu, hne⟩ | ⟨w', hw', hvar, hu⟩ | ⟨hno, hu⟩
        · exact .inl ⟨mem_cons_of_mem w hu, hne⟩
        · exact .inr (.inl ⟨w', mem_cons_of_mem w hw', hvar, hu⟩)
        · refine .inr (.inr ⟨?_, hu⟩)
          rw [map_cons, mem_cons, not_or]
          exact ⟨Ne.symm hw, hno⟩

/-- The usages of operands: one for each variable, with how often it is consumed
and borrowed. -/
structure Tallies (us : List Usage) (ops : List (Var × Bool)) : Prop where
  nodup : (us.map Usage.var).Nodup
  mem : ∀ v, v ∈ us.map Usage.var ↔ v ∈ ops.map Prod.fst
  consumed : ∀ u ∈ us, u.consumed = ops.count (u.var, true)
  borrowed : ∀ u ∈ us, u.borrowed = ops.count (u.var, false)

theorem count_of_not_mem (h : v ∉ ops.map Prod.fst) (b : Bool) : ops.count (v, b) = 0 :=
  count_eq_zero.2 fun hm => h (mem_map_of_mem hm)

/-- One more operand. -/
theorem Tallies.add (h : Tallies us ops) (v : Var) (consumes : Bool) :
    Tallies (addUse us v consumes) (ops ++ [(v, consumes)]) := by
  have hcount : ∀ x b, (ops ++ [(v, consumes)]).count (x, b) =
      ops.count (x, b) + if v = x ∧ consumes = b then 1 else 0 := by
    intro x b
    rw [count_append, count_singleton]
    simp
  have hmore : ∀ w : Usage, w.consumed = ops.count (w.var, true) →
      w.borrowed = ops.count (w.var, false) → w.var = v →
      (moreUse w consumes).consumed = (ops ++ [(v, consumes)]).count (w.var, true) ∧
      (moreUse w consumes).borrowed = (ops ++ [(v, consumes)]).count (w.var, false) := by
    intro w hc hb hw
    rw [hcount, hcount, ← hc, ← hb]
    cases consumes <;> simp [moreUse, hw]
  have hboth : ∀ u ∈ addUse us v consumes,
      u.consumed = (ops ++ [(v, consumes)]).count (u.var, true) ∧
      u.borrowed = (ops ++ [(v, consumes)]).count (u.var, false) := by
    intro u hu
    rcases mem_addUse hu h.nodup with ⟨hu, hne⟩ | ⟨w, hw, hvar, rfl⟩ | ⟨hno, rfl⟩
    · rw [hcount, hcount, h.consumed u hu, h.borrowed u hu]
      simp [Ne.symm hne]
    · rw [var_moreUse]
      exact hmore w (h.consumed w hw) (h.borrowed w hw) hvar
    · rw [h.mem] at hno
      rw [var_moreUse]
      exact hmore ⟨v, 0, 0⟩ (count_of_not_mem hno true).symm (count_of_not_mem hno false).symm rfl
  refine ⟨?_, fun x => ?_, fun u hu => (hboth u hu).1, fun u hu => (hboth u hu).2⟩
  · rw [vars_addUse]
    split
    · exact h.nodup
    · rename_i hno
      exact nodup_append.2 ⟨h.nodup, nodup_singleton v, fun a ha b hb hab =>
        hno (by rw [← mem_singleton.1 hb, ← hab]; exact ha)⟩
  · rw [vars_addUse, map_append, mem_append, ← h.mem]
    split
    · rename_i hv
      refine ⟨.inl, fun hx => hx.elim id fun hx => ?_⟩
      rw [mem_singleton.1 hx]
      exact hv
    · exact mem_append

/-- Usages count the operands. -/
theorem tallies_usages (ops : List (Var × Bool)) : Tallies (usages ops) ops := by
  induction ops using reverseRecOn with
  | nil => exact ⟨nodup_nil, fun v => Iff.rfl, fun u hu => absurd hu not_mem_nil,
      fun u hu => nomatch hu⟩
  | append_singleton ops op ih =>
    have heq : usages (ops ++ [op]) = addUse (usages ops) op.1 op.2 := by
      rw [usages, foldl_append]
      rfl
    rw [heq]
    exact ih.add op.1 op.2

theorem count_flatMap_of_not_mem (hv : v ∉ us.map Usage.var) (k : Usage → Nat) :
    (us.flatMap fun u => List.replicate (k u) u.var).count v = 0 := by
  refine count_eq_zero.2 fun hm => hv ?_
  obtain ⟨u, hu, hm⟩ := mem_flatMap.1 hm
  rw [eq_of_mem_replicate hm]
  exact mem_map_of_mem hu

/-- The counts of usages, one after the other. -/
theorem count_flatMap (hnd : (us.map Usage.var).Nodup) (k : Usage → Nat) :
    ∀ u ∈ us, (us.flatMap fun u => List.replicate (k u) u.var).count u.var = k u := by
  induction us with
  | nil => exact fun u hu => nomatch hu
  | cons w us ih =>
    obtain ⟨hfree, hnd⟩ := nodup_cons.1 hnd
    intro u hu
    rw [flatMap_cons, count_append]
    rcases mem_cons.1 hu with rfl | hu
    · rw [count_replicate_self, count_flatMap_of_not_mem hfree, add_zero]
    · have hne : w.var ≠ u.var := fun he => hfree (he ▸ mem_map_of_mem hu)
      rw [ih hnd u hu, count_replicate]
      simp [hne]

end Usages

-- ======== balance

section Balance

variable {c : Facts} {live : BitSet} {ops : List (Var × Bool)} {v : Var}

theorem tracked_iff :
    c.isTracked v = true ↔ c.isCounted v = true ∧ c.derived.contains v = false := by
  unfold Facts.isTracked
  rw [Bool.and_eq_true, Bool.not_eq_true']

/-- How often a variable is counted up before an instruction. -/
def upsOf (c : Facts) (u : Usage) (liveAfter : Bool) : Nat :=
  if c.isTracked u.var then
    if liveAfter = true ∨ u.borrowed ≠ 0 then u.consumed else u.consumed - 1
  else if c.isCounted u.var then u.consumed
  else 0

/-- How often a variable is counted down after an instruction. -/
def downsOf (c : Facts) (u : Usage) (liveAfter : Bool) : Nat :=
  if c.isTracked u.var = true ∧ liveAfter = false ∧ (u.consumed = 0 ∨ u.borrowed ≠ 0) then 1
  else 0

/-- What is put around a use. -/
theorem aroundUse_eq (c : Facts) (u : Usage) (liveAfter : Bool) :
    aroundUse c u liveAfter = ⟨List.replicate (upsOf c u liveAfter) (.inc u.var),
      List.replicate (downsOf c u liveAfter) (.dec u.var)⟩ := by
  unfold aroundUse upsOf downsOf
  dsimp only
  by_cases ht : c.isTracked u.var = true
  · cases liveAfter with
    | true => simp [ht]
    | false =>
      by_cases hc : u.consumed = 0
      · simp [ht, hc]
      · by_cases hb : u.borrowed = 0
        · simp [ht, hc, hb]
        · simp [ht, hc, hb]
  · by_cases hc : c.isCounted u.var = true
    · simp [ht, hc]
    · simp [ht, hc]

/-- What is counted up and down around operands, given what is live after
them. -/
structure Balanced (c : Facts) (live : BitSet) (ops : List (Var × Bool)) (ups downs : List Var) :
    Prop where
  /-- What is counted up is an operand. -/
  operand : ∀ v ∈ ups, c.isCounted v = true ∧ v ∈ ops.map Prod.fst
  /-- There are references enough for what is consumed. -/
  enough : ∀ v, c.isCounted v = true → ops.count (v, true) ≤
    ((useAll c live (ops.map Prod.fst)).contains v).toNat + ups.count v
  /-- What is left is what is live, and what is counted down. -/
  left : ∀ v, ((useAll c live (ops.map Prod.fst)).contains v).toNat + ups.count v -
    ops.count (v, true) = (live.contains v).toNat + downs.count v
  /-- What is only looked at is still there. -/
  kept : ∀ v, (v, false) ∈ ops → c.isTracked v = true →
    0 < (live.contains v).toNat + downs.count v
  /-- Only what is looked at is counted down. -/
  down : ∀ v, (v, false) ∉ ops → downs.count v = 0
  /-- Only what owns references is counted down. -/
  tracked : ∀ v ∈ downs, c.isTracked v = true

/-- What is put around the uses of an instruction balances. -/
theorem exists_balanced (c : Facts) (ops : List (Var × Bool))
    (hlive : ∀ v, live.contains v = true → c.isTracked v = true) :
    ∃ ups downs, aroundUses c live (usages ops) = ⟨ups.map .inc, downs.map .dec⟩ ∧
      Balanced c live ops ups downs := by
  have htally := tallies_usages ops
  have hups := count_flatMap htally.nodup fun u => upsOf c u (live.contains u.var)
  have hdowns := count_flatMap htally.nodup fun u => downsOf c u (live.contains u.var)
  -- what is live before, and the counts of a variable, by whether it is an operand
  have hcases : ∀ v, (v ∉ ops.map Prod.fst ∧ ops.count (v, true) = 0 ∧ ops.count (v, false) = 0 ∧
        (useAll c live (ops.map Prod.fst)).contains v = live.contains v) ∨
      ∃ u ∈ usages ops, u.var = v ∧ u.consumed = ops.count (v, true) ∧
        u.borrowed = ops.count (v, false) ∧
        (useAll c live (ops.map Prod.fst)).contains v = c.isTracked v := by
    intro v
    by_cases hv : v ∈ ops.map Prod.fst
    · obtain ⟨u, hu, rfl⟩ := mem_map.1 ((htally.mem v).2 hv)
      refine .inr ⟨u, hu, rfl, htally.consumed u hu, htally.borrowed u hu, ?_⟩
      rw [Bool.eq_iff_iff, contains_useAll]
      exact ⟨fun h => h.elim And.left (hlive _), fun h => .inl ⟨h, hv⟩⟩
    · refine .inl ⟨hv, count_of_not_mem hv true, count_of_not_mem hv false, ?_⟩
      rw [Bool.eq_iff_iff, contains_useAll]
      exact ⟨fun h => h.resolve_left fun h => hv h.2, .inr⟩
  have hpos : ∀ v b, (v, b) ∈ ops ↔ 0 < ops.count (v, b) := fun v b => count_pos_iff.symm
  refine ⟨(usages ops).flatMap fun u => List.replicate (upsOf c u (live.contains u.var)) u.var,
    (usages ops).flatMap fun u => List.replicate (downsOf c u (live.contains u.var)) u.var, ?_,
    ⟨fun v hv => ?_, fun v hc => ?_, fun v => ?_, fun v hv ht => ?_, fun v hv => ?_,
      fun v hv => ?_⟩⟩
  · unfold aroundUses
    rw [map_flatMap, map_flatMap]
    simp only [aroundUse_eq, flatMap_map, map_replicate]
  · obtain ⟨u, hu, hm⟩ := mem_flatMap.1 hv
    obtain ⟨hne, rfl⟩ := mem_replicate.1 hm
    refine ⟨?_, (htally.mem _).1 (mem_map_of_mem hu)⟩
    by_contra hc
    rw [upsOf, if_neg fun h => hc (tracked_iff.1 h).1, if_neg hc] at hne
    exact hne rfl
  · rcases hcases v with ⟨-, hzero, -, -⟩ | ⟨u, hu, rfl, hcons, hborr, hbefore⟩
    · rw [hzero]
      exact Nat.zero_le _
    · rw [hups u hu, hbefore, ← hcons, upsOf]
      by_cases ht : c.isTracked u.var = true
      · simp only [ht, if_true, Bool.toNat_true]
        split
        · exact Nat.le_add_left _ _
        · omega
      · simp only [ht, hc, if_true]
        exact Nat.le_add_left _ _
  · rcases hcases v with ⟨hno, hzero, -, hbefore⟩ | ⟨u, hu, rfl, hcons, hborr, hbefore⟩
    · rw [← htally.mem] at hno
      rw [count_flatMap_of_not_mem hno, count_flatMap_of_not_mem hno, hbefore, hzero]
      rfl
    · rw [hups u hu, hdowns u hu, hbefore, ← hcons, upsOf, downsOf]
      by_cases ht : c.isTracked u.var = true
      · cases hl : live.contains u.var with
        | true => simp [ht]
        | false =>
          by_cases hb : u.borrowed = 0
          · by_cases hc : u.consumed = 0
            · simp [ht, hb, hc]
            · simp only [ht, hb, hc, if_true, Bool.toNat_true, Bool.toNat_false]
              simp
              omega
          · simp [ht, hb]
      · have hl : live.contains u.var = false := Bool.eq_false_iff.2 fun h => ht (hlive _ h)
        by_cases hc : c.isCounted u.var = true
        · simp [ht, hc, hl]
        · simp [ht, hc, hl]
  · rcases hcases v with ⟨hno, -, -, -⟩ | ⟨u, hu, rfl, hcons, hborr, -⟩
    · exact absurd (mem_map_of_mem hv) hno
    · have hb : u.borrowed ≠ 0 := by
        rw [hborr]
        exact ((hpos _ _).1 hv).ne'
      rw [hdowns u hu, downsOf]
      cases hl : live.contains u.var with
      | true => simp
      | false => simp [ht, hb]
  · rcases hcases v with ⟨hno, -, -, -⟩ | ⟨u, hu, rfl, hcons, hborr, -⟩
    · exact count_flatMap_of_not_mem (fun h => hno ((htally.mem v).1 h)) _
    · have hb : u.borrowed = 0 := by
        rw [hborr]
        exact count_eq_zero.2 hv
      have hc : u.consumed ≠ 0 := by
        -- an operand that is not borrowed is consumed
        obtain ⟨⟨w, b⟩, hw, he⟩ := mem_map.1 ((htally.mem _).1 (mem_map_of_mem hu))
        dsimp only at he
        subst he
        cases b with
        | false => exact absurd hw hv
        | true =>
          rw [hcons]
          exact ((hpos _ _).1 hw).ne'
      rw [hdowns u hu, downsOf, if_neg]
      rintro ⟨-, -, h | h⟩
      · exact hc h
      · exact h hb
  · obtain ⟨u, -, hm⟩ := mem_flatMap.1 hv
    obtain ⟨hne, rfl⟩ := mem_replicate.1 hm
    by_contra ht
    exact hne (if_neg fun h => ht h.1)

end Balance

-- ======== instructions

/-- What insertion takes the variables of a function for. -/
def rolesOf (c : Facts) : Roles where
  counted := c.isCounted
  derived := c.derived.contains
  never _ := False

/-- The variables that are live own one reference each, and no others own any. -/
def Owns (live : BitSet) (σ : Holding) : Prop := ∀ v, σ.own v = (live.contains v).toNat

/-- Whether an instruction defines a part of what a variable owns. -/
def isPart (c : Facts) : Instr → Bool
  | .project _ src _ _ => c.isTracked src
  | _ => false

/-- What is put behind a definition. -/
theorem afterDef_eq (c : Facts) (x : Instr) (d : Var) (isLive : Bool) :
    afterDef c x d isLive = if isLive then (if isPart c x then [.inc d] else [])
      else (if isPart c x then [] else [.dec d]) := by
  cases x <;> rfl

/-- The counts of what an instruction defines. -/
def afterDefs (c : Facts) (x : Instr) (live : BitSet) : List Instr :=
  ((x.def?.filter c.isTracked).map fun d => afterDef c x d (live.contains d)).getD []

/-- What is live after an instruction without what it defines. -/
def liveBelow (c : Facts) (x : Instr) (live : BitSet) : BitSet :=
  ((x.def?.filter c.isTracked).map live.erase).getD live

/-- An instruction with what is put around it. -/
theorem consInstr_eq (c : Facts) (x : Instr) (s : Suffix) : consInstr c x s =
    ⟨useAll c (liveBelow c x s.live) x.uses,
      (aroundUses c (liveBelow c x s.live) (usages (operands c x))).before ++
        x :: (afterDefs c x s.live ++
          (aroundUses c (liveBelow c x s.live) (usages (operands c x))).after) ++ s.code⟩ := by
  unfold consInstr afterDefs liveBelow
  cases x.def?.filter c.isTracked <;> rfl

theorem contains_liveBelow {c : Facts} {x : Instr} {live : BitSet} {v : Var} :
    (liveBelow c x live).contains v = true ↔
      ¬(c.isTracked v = true ∧ x.def? = some v) ∧ live.contains v = true := by
  unfold liveBelow
  cases hd : x.def?.filter c.isTracked with
  | none =>
    rw [filter_eq_none_iff] at hd
    exact ⟨fun h => ⟨fun hv => hd v hv.2 hv.1, h⟩, And.right⟩
  | some d =>
    obtain ⟨hdef, htrack⟩ := filter_eq_some_iff.1 hd
    rw [hdef]
    by_cases hvd : v = d
    · subst hvd
      simp [htrack]
    · simp [hvd, Ne.symm hvd]

/-- The derived variables are the aliases of borrowed parameters. -/
def KnowsAliases (f : Func) (c : Facts) : Prop :=
  ∀ v, c.derived.contains v = true ↔ ∃ p ∈ f.params, p.mode = .borrowed ∧ Borrow.Leads f v p.var

section Aliases

variable {f : Func} {c : Facts} {x : Instr} {d : Var}

/-- An alias of what is derived is derived. -/
theorem KnowsAliases.alias (hk : KnowsAliases f c) (hf : f.defs.Nodup) (hx : x ∈ f.instrs)
    {src : Var} (ha : Borrow.aliasOf? x = some (d, src)) :
    c.derived.contains d = c.derived.contains src := by
  rw [Bool.eq_iff_iff, hk, hk]
  simp only [Borrow.leads_alias_iff hf hx ha]

theorem KnowsAliases.def (hk : KnowsAliases f c) (hf : f.defs.Nodup) (hx : x ∈ f.instrs)
    (hd : x.def? = some d) (ha : Borrow.aliasOf? x = none) : c.derived.contains d = false := by
  rw [Bool.eq_false_iff, ne_eq, hk]
  rintro ⟨p, -, -, h⟩
  exact Borrow.not_leads_of_def hf hx hd ha h

end Aliases

section Instr

variable {f : Func} {c : Facts} {S : Plan} {g : Func} {term : Option Term} {x : Instr}
  {s : Suffix} {live : BitSet}
variable {v : Var} {σ : Holding} {downs ups : List Var} {ops : List (Var × Bool)} {b : BlockId}
  {out : BitSet} {t : Option Term}

/-- What is defined is counted up if it is a part that is needed, and down if it
is owned and is not. -/
theorem ahead_afterDef {rest : List Instr}
    (hlive : ∀ v, s.live.contains v = true → c.isTracked v = true)
    (hother : ∀ v, x.def? ≠ some v → σ.own v = (s.live.contains v).toNat + downs.count v)
    (hpart : ∀ d, x.def? = some d → isPart c x = true → σ.own d = 0 ∧ (σ.part d).isSome)
    (hown : ∀ d, x.def? = some d → isPart c x = false → σ.own d = (c.isTracked d).toNat)
    (hdowns : ∀ d, x.def? = some d → downs.count d = 0)
    (hrest : ∀ σ', (∀ v, σ'.own v = (s.live.contains v).toNat + downs.count v) →
      Ahead c.sigs (rolesOf c) S g term rest σ') :
    Ahead c.sigs (rolesOf c) S g term (afterDefs c x s.live ++ rest) σ := by
  unfold afterDefs
  cases hd : x.def? with
  | none => exact hrest σ fun v => hother v (by simp [hd])
  | some d =>
    -- what is defined is brought to what is live of it
    have hdone : ∀ σ' : Holding, σ'.own d = (s.live.contains d).toNat →
        (∀ v, v ≠ d → σ'.own v = σ.own v) → Ahead c.sigs (rolesOf c) S g term rest σ' := by
      intro σ' hσd hsame
      refine hrest σ' fun v => ?_
      by_cases hv : v = d
      · rw [hv, hσd, hdowns d hd, add_zero]
      · refine (hsame v hv).trans (hother v fun h => hv ?_)
        exact some.inj (h.symm.trans hd)
    by_cases ht : c.isTracked d = true
    · rw [filter_some, if_pos ht]
      change Ahead c.sigs (rolesOf c) S g term (afterDef c x d (s.live.contains d) ++ rest) σ
      rw [afterDef_eq]
      have hnot : ∀ v, v ≠ d → count v [d] = 0 := fun v hv =>
        count_eq_zero.2 fun h => hv (mem_singleton.1 h)
      cases hp : isPart c x with
      | true =>
        obtain ⟨hzero, hsome⟩ := hpart d hd hp
        cases hl : s.live.contains d with
        | true =>
          refine ahead_incs [d] (fun v hv => ?_) fun σ' hσ' => hdone σ' ?_ fun v hv => ?_
          · rw [mem_singleton.1 hv]
            exact .inr (.inr (.inr hsome))
          · rw [hσ', hzero, hl]
            simp
          · rw [hσ', hnot v hv, add_zero]
        | false => exact hdone σ (by rw [hzero, hl]; rfl) fun _ _ => rfl
      | false =>
        have hone := hown d hd hp
        rw [ht] at hone
        cases hl : s.live.contains d with
        | true => exact hdone σ (by rw [hone, hl]) fun _ _ => rfl
        | false =>
          refine ahead_decs [d] (fun v _ => ?_) fun σ' hσ' => hdone σ' ?_ fun v hv => ?_
          · by_cases hv : v = d
            · subst hv
              rw [hone]
              simp
            · rw [hnot v hv]
              exact Nat.zero_le _
          · rw [hσ', hone, hl]
            simp
          · rw [hσ', hnot v hv, Nat.sub_zero]
    · rw [filter_some, if_neg ht]
      have hl : s.live.contains d = false := Bool.eq_false_iff.2 fun h => ht (hlive d h)
      refine hdone σ ?_ fun _ _ => rfl
      rw [hl]
      cases hp : isPart c x with
      | true => exact (hpart d hd hp).1
      | false => rw [hown d hd hp, Bool.eq_false_iff.2 ht]

/-- What an instruction that is given references of its own finds: enough for
what it consumes, and what it looks at is still there when that is gone. -/
structure Ready (c : Facts) (live : BitSet) (ops : List (Var × Bool)) (downs : List Var)
    (σ : Holding) (spent : List Var) : Prop where
  covers : σ.Covers (rolesOf c) spent
  left : ∀ v, (σ.spendAll spent).own v = (live.contains v).toNat + downs.count v
  read : ∀ v, (v, false) ∈ ops → (σ.spendAll spent).Readable (rolesOf c) v

/-- What is owned suffices for the instruction. -/
theorem Balanced.ready {spent : List Var} (h : Balanced c live ops ups downs)
    (hspent : ∀ v, spent.count v = ops.count (v, true))
    (hσ : ∀ v, σ.own v = ((useAll c live (ops.map Prod.fst)).contains v).toNat + ups.count v) :
    Ready c live ops downs σ spent := by
  have hleft : ∀ v, (σ.spendAll spent).own v = (live.contains v).toNat + downs.count v := by
    intro v
    rw [own_spendAll, hσ, hspent, h.left]
  refine ⟨covers_of_count fun v hv => ?_, hleft, fun v hv => ?_⟩
  · rw [hspent, hσ]
    exact h.enough v hv
  · by_cases hc : c.isCounted v = true
    · cases hd : c.derived.contains v with
      | true => exact .inr (.inl hd)
      | false =>
        refine .inr (.inr (.inl ?_))
        rw [hleft]
        exact h.kept v hv (tracked_iff.2 ⟨hc, hd⟩)
    · exact .inl (Bool.eq_false_iff.2 hc)

/-- Operands that are counted up may be looked at. -/
theorem Balanced.readable (h : Balanced c live ops ups downs)
    (hσ : ∀ v, σ.own v = ((useAll c live (ops.map Prod.fst)).contains v).toNat) :
    ∀ v ∈ ups, σ.Readable (rolesOf c) v := by
  intro v hv
  obtain ⟨hc, hop⟩ := h.operand v hv
  cases hd : c.derived.contains v with
  | true => exact .inr (.inl hd)
  | false =>
    refine .inr (.inr (.inl ?_))
    rw [hσ, contains_useAll.2 (.inl ⟨tracked_iff.2 ⟨hc, hd⟩, hop⟩)]
    exact one_pos

/-- The arguments that a call takes over are those that are consumed. -/
theorem count_handed (modes : Option (List Mode)) (args : List Var) (v : Var) :
    (handed modes 0 args).count v = (args.zipIdx.map fun p =>
      (p.1, Borrow.takesOver modes p.2)).count (v, true) := by
  generalize 0 = i
  induction args generalizing i with
  | nil => rfl
  | cons a args ih =>
    rw [handed, pick, zipIdx_cons, map_cons, count_cons, ← ih]
    dsimp only
    cases Borrow.takesOver modes i with
    | true =>
      rw [if_pos rfl, count_cons]
      simp
    | false => simp

theorem mem_lent {modes : Option (List Mode)} {args : List Var} (h : v ∈ lent modes 0 args) :
    (v, false) ∈ args.zipIdx.map fun p =>
      (p.1, Borrow.takesOver modes p.2) := by
  generalize 0 = i at h ⊢
  induction args generalizing i with
  | nil => cases h
  | cons a args ih =>
    rw [lent, pick] at h
    rw [zipIdx_cons, map_cons]
    dsimp only
    cases ht : Borrow.takesOver modes i with
    | true =>
      rw [ht] at h
      exact .tail _ (ih (i + 1) h)
    | false =>
      rw [ht] at h
      rcases mem_cons.1 h with rfl | h
      · exact .head _
      · exact .tail _ (ih (i + 1) h)

theorem count_pairs (vs : List Var) (v : Var) (b : Bool) :
    (vs.map fun u => (u, b)).count (v, b) = vs.count v := by
  induction vs with
  | nil => rfl
  | cons u vs ih =>
    rw [map_cons, count_cons, count_cons, ih]
    simp

theorem count_lookedAt (vs : List Var) (v : Var) :
    (vs.map fun u => (u, false)).count (v, true) = 0 := by
  refine count_eq_zero.2 fun h => ?_
  obtain ⟨u, -, hu⟩ := mem_map.1 h
  cases congrArg Prod.snd hu

section

variable (hk : KnowsAliases f c) (hf : f.defs.Nodup) (hx : x ∈ f.instrs)
  (hlow : checkStage .lowered b x = .ok ()) (hdst : ∀ d, x.def? = some d → d ∉ x.uses)
include hk hf hx hlow hdst

/-- An instruction of code without counts, once its operands have been counted
up, leaves what is live after it, what is to be counted down, and what it
defines. -/
theorem moves_of_balanced
    (hlive : ∀ d, x.def? = some d → live.contains d = false)
    (hbal : Balanced c live (operands c x) ups downs)
    (hdown : ∀ d, x.def? = some d → downs.count d = 0)
    (hσ : ∀ v, σ.own v = ((useAll c live x.uses).contains v).toNat + ups.count v) :
    ∃ σ', Moves c.sigs (rolesOf c) σ x σ' ∧
      (∀ v, x.def? ≠ some v → σ'.own v = (live.contains v).toNat + downs.count v) ∧
      (∀ d, x.def? = some d → isPart c x = true → σ'.own d = 0 ∧ (σ'.part d).isSome) ∧
      ∀ d, x.def? = some d → isPart c x = false → σ'.own d = (c.isTracked d).toNat := by
  rw [← map_fst_operands (c := c)] at hσ
  have hready : ∀ spent, (∀ v, spent.count v = (operands c x).count (v, true)) →
      Ready c live (operands c x) downs σ spent := fun spent hs => hbal.ready hs hσ
  have hzero : ∀ {spent d}, Ready c live (operands c x) downs σ spent → x.def? = some d →
      (σ.spendAll spent).own d = 0 := by
    intro spent d h hd
    rw [h.left, hlive d hd, hdown d hd]
    rfl
  -- what is not an alias is assigned something to own
  have howned : ∀ {spent d}, Ready c live (operands c x) downs σ spent → x.def? = some d →
      c.derived.contains d = false → isPart c x = false →
      (σ.spendAll spent).Fresh (rolesOf c) d ∧
      (∀ v, x.def? ≠ some v → ((σ.spendAll spent).gain (rolesOf c) d).own v =
        (live.contains v).toNat + downs.count v) ∧
      (∀ d', x.def? = some d' → isPart c x = true →
        ((σ.spendAll spent).gain (rolesOf c) d).own d' = 0 ∧
        (((σ.spendAll spent).gain (rolesOf c) d).part d').isSome) ∧
      ∀ d', x.def? = some d' → isPart c x = false →
        ((σ.spendAll spent).gain (rolesOf c) d).own d' = (c.isTracked d').toNat := by
    intro spent d h hd hder hpart
    refine ⟨⟨hzero h hd, hder, id⟩, fun v hv => ?_, fun d' _ hp => ?_, fun d' hd' _ => ?_⟩
    · have hne : v ≠ d := fun he => hv (he ▸ hd)
      rw [← h.left v]
      simp [gain, hne]
    · rw [hpart] at hp
      cases hp
    · cases hd.symm.trans hd'
      simp only [gain, Function.update_self, Facts.isTracked, hder]
      cases hc : c.isCounted d <;> simp [rolesOf, hc]
  have hfree : ∀ {d}, x.def? = some d → Borrow.aliasOf? x = none →
      c.derived.contains d = false := fun hd ha => hk.def hf hx hd ha
  have hnot : ∀ {v}, c.derived.contains v = true → c.isTracked v = false := fun hv =>
    Bool.eq_false_iff.2 fun h => Bool.false_ne_true ((tracked_iff.1 h).2.symm.trans hv)
  cases x with
  | inc | dec | reset | reuse | isShared | set | setTag => cases hlow
  | lit dst value =>
    have hr := hready [] fun v => rfl
    obtain ⟨hfresh, hrest⟩ := howned hr rfl (hfree rfl rfl) rfl
    exact ⟨_, .lit hfresh, hrest⟩
  | prim dst op args =>
    have hr := hready [] fun v => (count_lookedAt args v).symm
    obtain ⟨hfresh, hrest⟩ := howned hr rfl (hfree rfl rfl) rfl
    refine ⟨_, .prim (fun a ha => hr.read a ?_) hfresh, hrest⟩
    exact mem_map_of_mem ha
  | tag dst src =>
    have hr := hready [] fun v => (count_lookedAt [src] v).symm
    obtain ⟨hfresh, hrest⟩ := howned hr rfl (hfree rfl rfl) rfl
    exact ⟨_, .tag (hr.read src (.head _)) hfresh, hrest⟩
  | construct dst t variant args =>
    have hr := hready args fun v => (count_pairs args v true).symm
    obtain ⟨hfresh, hrest⟩ := howned hr rfl (hfree rfl rfl) rfl
    exact ⟨_, .construct hr.covers hfresh, hrest⟩
  | closure dst func args =>
    have hr := hready args fun v => (count_pairs args v true).symm
    obtain ⟨hfresh, hrest⟩ := howned hr rfl (hfree rfl rfl) rfl
    exact ⟨_, .closure hr.covers hfresh, hrest⟩
  | callClosure dst callee args =>
    have hr := hready args fun v => by
      rw [operands, count_cons_of_ne (by simp), count_pairs]
    obtain ⟨hfresh, hrest⟩ := howned hr rfl (hfree rfl rfl) rfl
    exact ⟨_, .callClosure hr.covers (hr.read callee (.head _)) hfresh, hrest⟩
  | call dst func args tail =>
    have hr := hready (handed (c.sigs.find? func) 0 args) (count_handed _ args)
    obtain ⟨hfresh, hrest⟩ := howned hr rfl (hfree rfl rfl) rfl
    exact ⟨_, .call hr.covers (fun a ha => hr.read a (mem_lent ha)) hfresh, hrest⟩
  | move dst src =>
    have halias : c.derived.contains dst = c.derived.contains src := hk.alias hf hx rfl
    cases hsrc : c.derived.contains src with
    | true =>
      have hr := hready [] fun v => by
        rw [operands, hsrc]
        exact (count_lookedAt [src] v).symm
      have hder := halias.trans hsrc
      refine ⟨_, .moveAlias hsrc hder (hzero hr rfl) id, fun v _ => hr.left v,
        fun d _ hp => absurd hp Bool.false_ne_true, fun d hd _ => ?_⟩
      cases hd
      rw [hnot hder]
      exact hzero hr rfl
    | false =>
      have hr := hready [src] fun v => by
        rw [operands, hsrc]
        exact (count_pairs [src] v true).symm
      obtain ⟨hfresh, hrest⟩ := howned hr rfl (halias.trans hsrc) rfl
      exact ⟨_, .move hr.covers hfresh, hrest⟩
  | project dst src variant field =>
    have halias : c.derived.contains dst = c.derived.contains src := hk.alias hf hx rfl
    have hr := hready [] fun v => (count_lookedAt [src] v).symm
    cases hsrc : c.derived.contains src with
    | true =>
      have hder := halias.trans hsrc
      refine ⟨_, .projectAlias hsrc hder (hzero hr rfl) id, fun v _ => hr.left v,
        fun d _ hp => ?_, fun d hd _ => ?_⟩
      · rw [isPart, hnot hsrc] at hp
        cases hp
      · cases hd
        rw [hnot hder]
        exact hzero hr rfl
    | false =>
      by_cases hc : c.isCounted src = true
      · -- a part of what is owned owns nothing itself
        have ht : c.isTracked src = true := tracked_iff.2 ⟨hc, hsrc⟩
        have hpos : 0 < σ.own src := by
          have := hr.left src
          rw [spendAll, foldl_nil] at this
          rw [this]
          exact hbal.kept src (.head _) ht
        have hne : dst ≠ src := fun he => hdst dst rfl (he ▸ (.head _))
        refine ⟨_, .project ⟨hc, hpos⟩ ⟨hzero hr rfl, halias.trans hsrc, id⟩ hne,
          fun v _ => hr.left v, fun d hd _ => ?_, fun d _ hp => ?_⟩
        · cases hd
          exact ⟨hzero hr rfl, by simp [view]⟩
        · rw [isPart, ht] at hp
          exact absurd hp.symm Bool.false_ne_true
      · have hpart : isPart c (.project dst src variant field) = false :=
          Bool.eq_false_iff.2 fun h => hc (tracked_iff.1 h).1
        obtain ⟨hfresh, hrest⟩ := howned hr rfl (halias.trans hsrc) hpart
        exact ⟨_, .projectBare (Bool.eq_false_iff.2 hc) hfresh, hrest⟩

/-- An instruction with its counts around it leads from what is live before it
to what is live after. -/
theorem ahead_consInstr
    (hlive : ∀ v, s.live.contains v = true → c.isTracked v = true)
    (hrest : ∀ σ', Owns s.live σ' → Ahead c.sigs (rolesOf c) S g term s.code σ')
    (hσ : Owns (consInstr c x s).live σ) :
    Ahead c.sigs (rolesOf c) S g term (consInstr c x s).code σ := by
  have hsame : ∀ v, x.def? ≠ some v →
      (liveBelow c x s.live).contains v = s.live.contains v := by
    intro v hv
    rw [Bool.eq_iff_iff, contains_liveBelow]
    exact and_iff_right fun h => hv h.2
  have hgone : ∀ d, x.def? = some d → (liveBelow c x s.live).contains d = false := by
    intro d hd
    rw [Bool.eq_false_iff, ne_eq, contains_liveBelow]
    exact fun h => h.1 ⟨hlive d h.2, hd⟩
  obtain ⟨ups, downs, haround, hbal⟩ := exists_balanced c (operands c x)
    fun v hv => hlive v (contains_liveBelow.1 hv).2
  have hdowns : ∀ d, x.def? = some d → downs.count d = 0 := by
    intro d hd
    refine hbal.down d fun h => hdst d hd ?_
    rw [← map_fst_operands (c := c)]
    exact mem_map_of_mem h
  rw [consInstr_eq] at hσ
  rw [consInstr_eq, haround, append_assoc, cons_append, append_assoc]
  refine ahead_incs ups (hbal.readable fun v => ?_) fun σ₁ hσ₁ => ?_
  · rw [map_fst_operands]
    exact hσ v
  obtain ⟨σ₂, hmoves, hother, hpart, hown⟩ := moves_of_balanced hk hf hx hlow hdst hgone hbal
    hdowns fun v => by rw [hσ₁, hσ v]
  refine ⟨σ₂, hmoves, ahead_afterDef hlive (fun v hv => ?_) hpart hown hdowns fun σ₃ hσ₃ => ?_⟩
  · rw [hother v hv, hsame v hv]
  · refine ahead_decs downs (fun v _ => ?_) fun σ₄ hσ₄ => hrest σ₄ fun v => ?_
    · rw [hσ₃]
      exact Nat.le_add_left _ _
    · rw [hσ₄, hσ₃, Nat.add_sub_cancel]

end

section

variable (hout : ∀ v, out.contains v = true → c.isTracked v = true)
  (hleaves : ∀ σ' downs, (∀ v, (v, false) ∉ termOperands t → downs.count v = 0) → (∀ spent, (∀ v,
    spent.count v = (termOperands t).count (v, true)) →
      Ready c out (termOperands t) downs σ' spent) → ∀ t', term = some t' →
        Leaves (rolesOf c) S g σ' t')
include hout hleaves

/-- The counts before a terminator give it the references that it hands on. -/
theorem ahead_termSuffix (hσ : Owns (termSuffix c out t).live σ) :
    Ahead c.sigs (rolesOf c) S g term (termSuffix c out t).code σ := by
  obtain ⟨ups, downs, haround, hbal⟩ := exists_balanced c (termOperands t) hout
  unfold termSuffix at hσ ⊢
  dsimp only at hσ ⊢
  rw [← map_fst_termOperands] at hσ
  rw [haround, ← append_nil (ups.map Instr.inc)]
  refine ahead_incs ups (hbal.readable hσ) fun σ' hσ' => ?_
  exact hleaves σ' downs hbal.down fun spent hs => hbal.ready hs fun v => by rw [hσ', hσ v]

/-- Code with counts leads from what is live at its start to its terminator. -/
theorem ahead_countCode {code : List Instr} (hk : KnowsAliases f c) (hf : f.defs.Nodup)
    (hcode : ∀ x ∈ code, x ∈ f.instrs ∧ checkStage .lowered b x = .ok () ∧ ∀ d, x.def? = some d →
      d ∉ x.uses) :
    (∀ v, (code.foldr (consInstr c) (termSuffix c out t)).live.contains v = true →
      c.isTracked v = true) ∧ ∀ σ, Owns (code.foldr (consInstr c) (termSuffix c out t)).live σ →
      Ahead c.sigs (rolesOf c) S g term (code.foldr (consInstr c) (termSuffix c out t)).code σ := by
  induction code with
  | nil =>
    refine ⟨fun v hv => ?_, fun σ hσ => ahead_termSuffix hout hleaves hσ⟩
    rcases contains_useAll.1 hv with h | h
    · exact h.1
    · exact hout v h
  | cons x code ih =>
    obtain ⟨htracked, hahead⟩ := ih fun y hy => hcode y (mem_cons_of_mem x hy)
    obtain ⟨hx, hlow, hdst⟩ := hcode x (.head _)
    refine ⟨fun v hv => ?_, fun σ hσ => ahead_consInstr hk hf hx hlow hdst htracked hahead hσ⟩
    rcases live_consInstr.1 hv with h | h
    · exact h.1
    · exact htracked v h.2

end

end Instr

end RefCount.Ownership
