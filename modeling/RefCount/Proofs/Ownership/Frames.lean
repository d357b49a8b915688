/-
A frame of the machine and its plain counterpart. Both are at the same place;
what a variable that is held by someone denotes is the tree that the other
frame has for it.

# What is held

The references that a frame holds are those that its variables own, each as
often as the plan says. Aliases of borrowed parameters are within reach of
what the callers hold, which is given as references from outside the frame,
and a part is a field of what another variable owns. So everything that may be
looked at is within reach of what the frame and its callers hold
(`Matches.within`), and stays as it is as long as they hold it
(`Matches.keeps`).
-/
import Mathlib
import RefCount.Proofs.Ownership.Plan
import RefCount.Proofs.Plain.Machine

namespace RefCount.Ownership

open Ir List Option
open Machine (Address Heap Value Within partsOf treeOf assigned get_assigned isSet_assigned
  assignedAll assignedAll_same)
open Machine.Value (refsAll)

-- ======== variables

/-- What has not been assigned holds nothing. -/
theorem refs_of_not_isSet {fr : Machine.Frame} {x : Var} (hx : fr.isSet x = false) :
    (fr.get x).refs = 0 := by
  unfold Machine.Frame.isSet at hx
  unfold Machine.Frame.get
  rw [isSome_eq_false_iff, isNone_iff_eq_none] at hx
  rw [hx]
  exact Value.refs_unit

-- ======== roots

/-- The references that the variables of a frame own. -/
def roots (σ : Holding) (fr : Machine.Frame) : Multiset Address :=
  ∑ x ∈ Finset.range fr.vars.size, σ.own x • (fr.get x).refs

section Roots

variable {r : Roles} {σ τ : Holding} {fr : Machine.Frame} {v : Var}

/-- Sums that differ at one place only. -/
theorem sum_range_eq {n : Nat} {f g : Nat → Multiset Address} {v : Nat}
    (h : ∀ x, x ≠ v → f x = g x) (hv : n ≤ v → f v = g v) :
    ∑ x ∈ Finset.range n, f x + g v = ∑ x ∈ Finset.range n, g x + f v := by
  by_cases hn : v < n
  · have hmem : v ∈ Finset.range n := Finset.mem_range.2 hn
    have hrest : ∑ x ∈ (Finset.range n).erase v, f x = ∑ x ∈ (Finset.range n).erase v, g x :=
      Finset.sum_congr rfl fun x hx => h x (Finset.ne_of_mem_erase hx)
    rw [← Finset.add_sum_erase _ f hmem, ← Finset.add_sum_erase _ g hmem, hrest]
    abel
  · have hsum : ∑ x ∈ Finset.range n, f x = ∑ x ∈ Finset.range n, g x := by
      refine Finset.sum_congr rfl fun x hx => h x ?_
      have := Finset.mem_range.1 hx
      omega
    rw [hsum, hv (not_lt.1 hn)]

/-- What is not there holds nothing. -/
theorem refs_of_size_le (hv : fr.vars.size ≤ v) : (fr.get v).refs = 0 := by
  refine refs_of_not_isSet ?_
  unfold Machine.Frame.isSet
  rw [Array.getElem?_eq_none hv]
  rfl

/-- Plans that agree where anything is held own the same. -/
theorem roots_congr (h : ∀ x, (fr.get x).refs ≠ 0 → τ.own x = σ.own x) :
    roots τ fr = roots σ fr := by
  refine Finset.sum_congr rfl fun x _ => ?_
  by_cases hx : (fr.get x).refs = 0
  · rw [hx, smul_zero, smul_zero]
  · rw [h x hx]

theorem roots_spend (hv : (fr.get v).refs ≠ 0 → 0 < σ.own v) :
    roots σ fr = (fr.get v).refs + roots (σ.spend v) fr := by
  have hsum := sum_range_eq (n := fr.vars.size) (v := v)
    (f := fun x => σ.own x • (fr.get x).refs)
    (g := fun x => (σ.spend v).own x • (fr.get x).refs)
    (fun x hx => by simp [Holding.spend, hx])
    (fun hn => by simp [refs_of_size_le hn])
  have hstep : σ.own v • (fr.get v).refs =
      (fr.get v).refs + (σ.spend v).own v • (fr.get v).refs := by
    by_cases hrefs : (fr.get v).refs = 0
    · rw [hrefs, smul_zero, smul_zero, add_zero]
    · obtain ⟨n, hn⟩ : ∃ n, σ.own v = n + 1 := ⟨σ.own v - 1, by have := hv hrefs; omega⟩
      simp only [Holding.spend, Function.update_self]
      rw [hn, Nat.add_sub_cancel, succ_nsmul]
      abel
  unfold roots
  rw [hstep] at hsum
  refine add_right_cancel (b := (σ.spend v).own v • (fr.get v).refs) ?_
  rw [hsum]
  abel

theorem roots_spendAll (hbare : ∀ x, r.counted x = false → (fr.get x).refs = 0) :
    ∀ {vs : List Var} {σ : Holding}, σ.Covers r vs →
      roots σ fr = refsAll (fr.getAll vs) + roots (σ.spendAll vs) fr := by
  intro vs
  induction vs with
  | nil =>
    intro σ _
    simp [Machine.Frame.getAll, Holding.spendAll]
  | cons v vs ih =>
    rintro σ ⟨hv, hvs⟩
    have hv' : (fr.get v).refs ≠ 0 → 0 < σ.own v := by
      intro hne
      refine hv ?_
      by_contra hc
      exact hne (hbare v (by simpa using hc))
    rw [roots_spend hv', ih hvs]
    simp [Machine.Frame.getAll, Holding.spendAll, add_assoc]

/-- Taking one more reference. -/
theorem roots_add (v : Var) : roots (σ.add v) fr = (fr.get v).refs + roots σ fr := by
  have hspend := @roots_spend (σ.add v) fr v (fun _ => by simp [Holding.add])
  rw [hspend]
  congr 1
  refine roots_congr fun x _ => ?_
  simp [Holding.spend, Holding.add]

/-- Assigning a variable that owns nothing. -/
theorem roots_assigned {dst : Var} {u : Value} (hdst : dst < fr.vars.size)
    (hown : σ.own dst = 0) (hτ : ∀ x, x ≠ dst → τ.own x = σ.own x) :
    roots τ (assigned fr dst u) = τ.own dst • u.refs + roots σ fr := by
  have hsum := sum_range_eq (n := fr.vars.size) (v := dst)
    (f := fun x => τ.own x • ((assigned fr dst u).get x).refs)
    (g := fun x => σ.own x • (fr.get x).refs)
    (fun x hx => by simp [get_assigned hdst, hx, hτ x hx])
    (fun hn => absurd hdst (not_lt.2 hn))
  simp only [hown, zero_smul, add_zero, get_assigned hdst, if_true] at hsum
  unfold roots
  have hsize : (assigned fr dst u).vars.size = fr.vars.size := by
    simp [assigned]
  rw [hsize]
  simp only [get_assigned hdst]
  rw [hsum]
  abel

/-- What a variable owns is among the references of its frame. -/
theorem refs_le_roots (hv : 0 < σ.own v) : (fr.get v).refs ≤ roots σ fr := by
  rw [roots_spend fun _ => hv]
  exact Multiset.le_add_right _ _

end Roots

-- ======== matching

/-- A frame of the machine and its plain counterpart. `A` is what the callers
hold. -/
structure Matches (pool : Pool) (r : Roles) (h : Heap) (A : Multiset Address)
    (σ : Holding) (fr : Machine.Frame) (pf : Plain.Frame) : Prop where
  func : pf.func = fr.func
  block : pf.block = fr.block
  code : pf.code = fr.code
  set : ∀ x, fr.isSet x = (pf.vars x).isSome
  never : ∀ x, r.never x → fr.isSet x = false
  bare : ∀ x, r.counted x = false → (fr.get x).refs = 0
  derived : ∀ x, r.derived x = true → Within h A (fr.get x)
  part : ∀ x q, σ.part x = some q → r.counted q.1 ∧ 0 < σ.own q.1 ∧
    (partsOf h (fr.get q.1))[q.2]? = some (fr.get x)
  tree : ∀ x t, σ.Readable r x → pf.vars x = some t → treeOf pool h (fr.get x) = t

namespace Matches

variable {pool : Pool} {r : Roles} {h h' : Heap} {A : Multiset Address}
  {σ τ : Holding} {fr : Machine.Frame} {pf : Plain.Frame}
variable {x dst : Var} {v : Value} {t : Machine.Tree}
variable (hm : Matches pool r h A σ fr pf)
include hm

/-- What may be looked at is within reach of what is held. -/
theorem within (hx : σ.Readable r x) : Within h (A + roots σ fr) (fr.get x) := by
  rcases hx with hx | hx | hx | hx
  · intro p hp
    rw [hm.bare x hx] at hp
    exact absurd hp (Multiset.notMem_zero p)
  · exact (hm.derived x hx).mono (Multiset.le_add_right A _)
  · refine Within.mono Machine.within_refs ?_
    exact (refs_le_roots hx).trans (Multiset.le_add_left _ A)
  · obtain ⟨q, hq⟩ := isSome_iff_exists.1 hx
    obtain ⟨-, hown, hpart⟩ := hm.part x q hq
    refine Within.part (v := fr.get q.1) ?_ (mem_of_getElem? hpart)
    refine Within.mono Machine.within_refs ?_
    exact (refs_le_roots hown).trans (Multiset.le_add_left _ A)

/-- The value of a variable that has been assigned and may be looked at. -/
theorem value (hx : σ.Readable r x) (hset : fr.isSet x = true) :
    pf.vars x = some (treeOf pool h (fr.get x)) := by
  rw [hm.set] at hset
  obtain ⟨t, ht⟩ := isSome_iff_exists.1 hset
  rw [ht, hm.tree x t hx ht]

/-- The values of variables that have been assigned and may be looked at. -/
theorem values {xs : List Var}
    (hxs : ∀ x ∈ xs, σ.Readable r x) (hset : ∀ x ∈ xs, fr.isSet x = true) :
    pf.getAll xs = some ((fr.getAll xs).map (treeOf pool h)) := by
  rw [Plain.Frame.getAll_eq_some, Machine.Frame.getAll, List.map_map,
    forall₂_map_right_iff, forall₂_same]
  exact fun x hx => hm.value (hxs x hx) (hset x hx)

/-- The heap may change as long as what is held stays. -/
theorem keeps (hk : Heap.Keeps (A + roots σ fr) h h') : Matches pool r h' A σ fr pf where
  func := hm.func
  block := hm.block
  code := hm.code
  set := hm.set
  never := hm.never
  bare := hm.bare
  derived x hx := (hm.derived x hx).keeps (hk.mono (Multiset.le_add_right A _))
  part x q hq := by
    obtain ⟨hc, hown, hpart⟩ := hm.part x q hq
    refine ⟨hc, hown, ?_⟩
    have hle : (fr.get q.1).refs ≤ A + roots σ fr :=
      (refs_le_roots hown).trans (Multiset.le_add_left _ A)
    rw [Machine.partsOf_keeps (Within.mono Machine.within_refs hle) hk]
    exact hpart
  tree x t hx ht := by
    rw [Machine.treeOf_keeps (hm.within hx) hk]
    exact hm.tree x t hx ht

/-- Both frames may go to the start of a block. -/
theorem goTo (b : Block) : Matches pool r h A σ { fr with block := b, code := b.code }
      { pf with block := b, code := b.code } :=
  ⟨hm.func, rfl, rfl, hm.set, hm.never, hm.bare, hm.derived, hm.part, hm.tree⟩

/-- Both frames may go on to some code. -/
theorem goOn (code : List Instr) :
    Matches pool r h A σ { fr with code := code } { pf with code := code } :=
  ⟨hm.func, hm.block, rfl, hm.set, hm.never, hm.bare, hm.derived, hm.part, hm.tree⟩

/-- Less may be known. -/
theorem weaken (hread : ∀ x, (pf.vars x).isSome → τ.Readable r x → σ.Readable r x)
    (hpart : ∀ x q, τ.part x = some q → σ.part x = some q ∧ 0 < τ.own q.1) :
    Matches pool r h A τ fr pf where
  func := hm.func
  block := hm.block
  code := hm.code
  set := hm.set
  never := hm.never
  bare := hm.bare
  derived := hm.derived
  part x q hq := by
    obtain ⟨hq', hown⟩ := hpart x q hq
    obtain ⟨hc, -, hval⟩ := hm.part x q hq'
    exact ⟨hc, hown, hval⟩
  tree x t hx ht := hm.tree x t (hread x (by rw [ht]; rfl) hx) ht

theorem spend (v : Var) : Matches pool r h A (σ.spend v) fr pf := by
  have hpart : ∀ x q, (σ.spend v).part x = some q → σ.part x = some q ∧
      (q.1 = v → 1 < σ.own v) := by
    intro x q hq
    simpa [imp_iff_not_or] using filter_eq_some_iff.1 hq
  refine hm.weaken ?_ fun x q hq => ?_
  · exact fun _ _ hx => readable_of_spend hx
  · obtain ⟨hq', hmore⟩ := hpart x q hq
    refine ⟨hq', ?_⟩
    have hown := (hm.part x q hq').2.1
    by_cases hqv : q.1 = v
    · have hmore := hmore hqv
      rw [hqv]
      simp only [Holding.spend, Function.update_self]
      omega
    · simpa [Holding.spend, hqv] using hown

theorem spendAll (vs : List Var) : Matches pool r h A (σ.spendAll vs) fr pf := by
  induction vs generalizing σ with
  | nil => exact hm
  | cons v vs ih => exact ih (hm.spend v)

/-- Taking one more reference to what may be looked at. -/
theorem add {v : Var} (hv : σ.Readable r v) : Matches pool r h A (σ.add v) fr pf := by
  refine hm.weaken ?_ fun x q hq => ⟨hq, ?_⟩
  · rintro x - (hx | hx | hx | hx)
    · exact .inl hx
    · exact .inr (.inl hx)
    · by_cases hxv : x = v
      · exact hxv ▸ hv
      · exact .inr (.inr (.inl (by simpa [Holding.add, hxv] using hx)))
    · exact .inr (.inr (.inr hx))
  · have hown := (hm.part x q hq).2.1
    by_cases hqv : q.1 = v
    · rw [hqv]
      simp [Holding.add]
    · simpa [Holding.add, hqv] using hown

section

variable (hdst : dst < fr.vars.size)
include hdst

/-- Assigning a variable. What is asked of the value depends on what the plan
says of the variable from then on. -/
theorem assign (hn : ¬r.never dst)
    (hown : σ.own dst = 0) (hτ : ∀ x, x ≠ dst → τ.own x = σ.own x)
    (hparts : ∀ x q, x ≠ dst → τ.part x = some q → σ.part x = some q)
    (hbare : r.counted dst = false → v.refs = 0) (hderived : r.derived dst = true → Within h A v)
    (hpart : ∀ q, τ.part dst = some q → q.1 ≠ dst ∧ r.counted q.1 ∧ 0 < σ.own q.1 ∧
      (partsOf h (fr.get q.1))[q.2]? = some v) (htree : treeOf pool h v = t) :
    Matches pool r h A τ (assigned fr dst v) (pf.assign dst t) where
  func := hm.func
  block := hm.block
  code := hm.code
  set x := by
    rw [isSet_assigned hdst, hm.set]
    by_cases hx : x = dst
    · simp [Plain.Frame.assign, hx]
    · simp [Plain.Frame.assign, hx]
  never x hx := by
    have hne : x ≠ dst := fun he => hn (he ▸ hx)
    rw [isSet_assigned hdst, hm.never x hx]
    simp [hne]
  bare x hx := by
    rw [get_assigned hdst]
    split
    · next he => exact hbare (he ▸ hx)
    · exact hm.bare x hx
  derived x hx := by
    rw [get_assigned hdst]
    split
    · next he => exact hderived (he ▸ hx)
    · exact hm.derived x hx
  part x q hq := by
    by_cases hx : x = dst
    · subst hx
      obtain ⟨hne, hc, hpos, hval⟩ := hpart q hq
      rw [get_assigned hdst, get_assigned hdst, if_neg hne, if_pos rfl, hτ q.1 hne]
      exact ⟨hc, hpos, hval⟩
    · obtain ⟨hc, hpos, hval⟩ := hm.part x q (hparts x q hx hq)
      have hne : q.1 ≠ dst := fun he => by rw [he, hown] at hpos; exact absurd hpos (by simp)
      rw [get_assigned hdst, get_assigned hdst, if_neg hne, if_neg hx, hτ q.1 hne]
      exact ⟨hc, hpos, hval⟩
  tree x s hx hs := by
    rw [get_assigned hdst]
    by_cases hxd : x = dst
    · subst hxd
      rw [if_pos rfl]
      simp only [Plain.Frame.assign, Function.update_self] at hs
      rw [htree]
      exact some.inj hs
    · rw [if_neg hxd]
      simp only [Plain.Frame.assign, Function.update_of_ne hxd] at hs
      refine hm.tree x s ?_ hs
      rcases hx with hx | hx | hx | hx
      · exact .inl hx
      · exact .inr (.inl hx)
      · exact .inr (.inr (.inl (hτ x hxd ▸ hx)))
      · obtain ⟨q, hq⟩ := isSome_iff_exists.1 hx
        exact .inr (.inr (.inr (by rw [hparts x q hxd hq]; rfl)))

/-- A variable is assigned a value to own. -/
theorem gain (hf : σ.Fresh r dst)
    (hbare : r.counted dst = false → v.refs = 0) (htree : treeOf pool h v = t) :
    Matches pool r h A (σ.gain r dst) (assigned fr dst v) (pf.assign dst t) ∧
      roots (σ.gain r dst) (assigned fr dst v) = v.refs + roots σ fr := by
  have hother : ∀ x, x ≠ dst → (σ.gain r dst).own x = σ.own x := by
    intro x hx
    simp [Holding.gain, hx]
  refine ⟨hm.assign hdst hf.assigned hf.own hother ?_ hbare ?_ ?_ htree, ?_⟩
  · intro x q hx hq
    simpa [Holding.gain, hx] using hq
  · intro hd
    rw [hf.derived] at hd
    cases hd
  · intro q hq
    simp [Holding.gain] at hq
  · rw [roots_assigned hdst hf.own hother]
    congr 1
    simp only [Holding.gain, Function.update_self]
    split
    · exact one_smul _ _
    · next hc => rw [hbare (by simpa using hc), smul_zero]

/-- A variable is assigned something that the callers hold. -/
theorem forget (hn : ¬r.never dst)
    (hown : σ.own dst = 0) (hbare : r.counted dst = false → v.refs = 0) (hv : Within h A v)
    (htree : treeOf pool h v = t) :
    Matches pool r h A (σ.forget dst) (assigned fr dst v) (pf.assign dst t) ∧
      roots (σ.forget dst) (assigned fr dst v) = roots σ fr := by
  refine ⟨hm.assign hdst hn hown (fun _ _ => rfl) ?_ hbare (fun _ => hv) ?_ htree, ?_⟩
  · intro x q hx hq
    simpa [Holding.forget, hx] using hq
  · intro q hq
    simp [Holding.forget] at hq
  · rw [roots_assigned hdst hown (τ := σ.forget dst) fun _ _ => rfl]
    have hzero : (σ.forget dst).own dst = 0 := hown
    rw [hzero, zero_smul, zero_add]

/-- A variable is assigned a part of what another one owns. -/
theorem view {src : Var} {k : Nat}
    (hf : σ.Fresh r dst) (hsrc : r.counted src ∧ 0 < σ.own src) (hne : dst ≠ src)
    (hbare : r.counted dst = false → v.refs = 0) (hv : (partsOf h (fr.get src))[k]? = some v)
    (htree : treeOf pool h v = t) :
    Matches pool r h A (σ.view dst src k) (assigned fr dst v) (pf.assign dst t) ∧
      roots (σ.view dst src k) (assigned fr dst v) = roots σ fr := by
  refine ⟨hm.assign hdst hf.assigned hf.own (fun _ _ => rfl) ?_ hbare ?_ ?_ htree, ?_⟩
  · intro x q hx hq
    simpa [Holding.view, hx] using hq
  · intro hd
    rw [hf.derived] at hd
    cases hd
  · intro q hq
    obtain rfl : (src, k) = q := by simpa [Holding.view] using hq
    exact ⟨Ne.symm hne, hsrc.1, hsrc.2, hv⟩
  · rw [roots_assigned hdst hf.own (τ := σ.view dst src k) fun _ _ => rfl]
    have hzero : (σ.view dst src k).own dst = 0 := hf.own
    rw [hzero, zero_smul, zero_add]

end

end Matches

-- ======== several variables

/-- Variables that have no references in them hold trees without objects. -/
def Bares (r : Roles) (pf : Plain.Frame) : Prop :=
  ∀ x t, r.counted x = false → pf.vars x = some t → t.Bare

section Several

variable {pool : Pool} {r : Roles} {h : Heap} {A : Multiset Address}

/-- Assigning variables that there are. -/
theorem setAll_safe {w : Machine.World} {Q : Machine.Frame → Machine.World → Prop} :
    ∀ {vs : List Var} {xs : List Value} {fr : Machine.Frame},
      (vs.length ≤ xs.length → (∀ v ∈ vs, v < fr.vars.size) →
        Q (assignedAll fr vs xs) w) → Machine.Safe (fr.setAll vs xs) w Q := by
  intro vs
  induction vs with
  | nil =>
    intro xs fr hQ
    refine .pure ?_
    have hnil : assignedAll fr [] xs = fr := by cases xs <;> rfl
    rw [← hnil]
    exact hQ (Nat.zero_le _) fun v hv => nomatch hv
  | cons v vs ih =>
    intro xs fr hQ
    cases xs with
    | nil => exact Machine.Safe.fault
    | cons x xs =>
      refine .bind (Machine.Safe.set fun hv => ih fun hlen hvs => ?_)
      refine hQ (Nat.succ_le_succ hlen) fun u hu => ?_
      rcases mem_cons.1 hu with rfl | hu
      · exact hv
      · simpa [assigned] using hvs u hu

/-- Trees are assigned as long as there are enough. -/
theorem assignAll_isSome : ∀ {vs : List Var} {ts : List Machine.Tree} {pf : Plain.Frame},
    vs.length ≤ ts.length → ∃ pf', pf.assignAll vs ts = some pf' := by
  intro vs
  induction vs with
  | nil => exact fun _ => ⟨_, rfl⟩
  | cons v vs ih =>
    intro ts pf hlen
    cases ts with
    | nil => cases hlen
    | cons t ts => exact ih (Nat.le_of_succ_le_succ hlen)

theorem assignAll_func : ∀ {vs : List Var} {ts : List Machine.Tree} {pf pf' : Plain.Frame},
    pf.assignAll vs ts = some pf' → pf'.func = pf.func := by
  intro vs
  induction vs with
  | nil =>
    intro ts pf pf' hall
    cases hall
    rfl
  | cons v vs ih =>
    intro ts pf pf' hall
    cases ts with
    | nil => cases hall
    | cons t ts => exact @ih _ (pf.assign v t) _ hall

/-- Assigning trees changes nothing else. -/
theorem assignAll_of_notMem : ∀ {vs : List Var} {ts : List Machine.Tree}
    {pf pf' : Plain.Frame} {x : Var}, pf.assignAll vs ts = some pf' → x ∉ vs →
    pf'.vars x = pf.vars x := by
  intro vs
  induction vs with
  | nil =>
    intro ts pf pf' x hall _
    cases hall
    rfl
  | cons v vs ih =>
    intro ts pf pf' x hall hx
    cases ts with
    | nil => cases hall
    | cons t ts =>
      have hne : x ≠ v := fun he => hx (he ▸ (.head _))
      rw [ih hall fun hm => hx (mem_cons_of_mem v hm)]
      simp [Plain.Frame.assign, hne]

/-- Values for variables that have no references in them hold none. -/
theorem refs_of_bares : ∀ {vs : List Var} {xs : List Value} {pf pf' : Plain.Frame},
    vs.Nodup → vs.length = xs.length → (∀ x ∈ xs, ∀ p ∈ x.refs, h.Live p) →
    pf.assignAll vs (xs.map (treeOf pool h)) = some pf' → Bares r pf' →
    Forall₂ (fun v x => r.counted v = false → x.refs = 0) vs xs := by
  intro vs
  induction vs with
  | nil =>
    intro xs pf pf' _ hlen _ _ _
    obtain rfl := length_eq_zero_iff.1 hlen.symm
    exact .nil
  | cons v vs ih =>
    intro xs pf pf' hnd hlen hlive hall hbare
    cases xs with
    | nil => cases hlen
    | cons x xs =>
      obtain ⟨hv, hnd⟩ := nodup_cons.1 hnd
      replace hall : (pf.assign v (treeOf pool h x)).assignAll vs
        (xs.map (treeOf pool h)) = some pf' := hall
      refine .cons (fun hc => ?_) (ih hnd (Nat.succ.inj hlen)
        (fun u hu => hlive u (mem_cons_of_mem x hu)) hall hbare)
      refine @Machine.refs_of_bare pool _ x (hlive x (.head _)) (hbare v _ hc ?_)
      rw [assignAll_of_notMem hall hv]
      simp [Plain.Frame.assign]

/-- Variables are assigned values to own. -/
theorem Matches.gainAll : ∀ {vs : List Var} {xs : List Value} {σ : Holding}
    {fr : Machine.Frame} {pf pf' : Plain.Frame}, Matches pool r h A σ fr pf → vs.Nodup →
    (∀ v ∈ vs, v < fr.vars.size) → (∀ v ∈ vs, σ.Fresh r v) →
    Forall₂ (fun v x => r.counted v = false → x.refs = 0) vs xs →
    pf.assignAll vs (xs.map (treeOf pool h)) = some pf' →
    Matches pool r h A (σ.gainAll r vs) (assignedAll fr vs xs) pf' ∧
      roots (σ.gainAll r vs) (assignedAll fr vs xs) = refsAll xs + roots σ fr := by
  intro vs
  induction vs with
  | nil =>
    intro xs σ fr pf pf' hm _ _ _ hbare hall
    cases hbare
    cases hall
    exact ⟨hm, by simp [Holding.gainAll, assignedAll]⟩
  | cons v vs ih =>
    intro xs σ fr pf pf' hm hnd hsize hfresh hbare hall
    obtain ⟨x, xs, hx, hxs, rfl⟩ := forall₂_cons_left_iff.1 hbare
    obtain ⟨hv, hnd⟩ := nodup_cons.1 hnd
    obtain ⟨hm', hroots⟩ := hm.gain (hsize v (.head _)) (hfresh v (.head _)) hx rfl
    have hsize' : ∀ u ∈ vs, u < (assigned fr v x).vars.size := by
      intro u hu
      simpa [assigned] using hsize u (mem_cons_of_mem v hu)
    have hfresh' : ∀ u ∈ vs, (σ.gain r v).Fresh r u := by
      intro u hu
      have hf := hfresh u (mem_cons_of_mem v hu)
      have hne : u ≠ v := fun he => hv (he ▸ hu)
      exact ⟨by simpa [Holding.gain, hne] using hf.own, hf.derived, hf.assigned⟩
    obtain ⟨hm'', hroots'⟩ := ih hm' hnd hsize' hfresh' hxs hall
    refine ⟨hm'', ?_⟩
    show roots ((σ.gain r v).gainAll r vs) (assignedAll (assigned fr v x) vs xs) = _
    rw [hroots', hroots, Value.refsAll_cons]
    abel

/-- What is known once parameters are assigned: the owned ones own what they
hold, and the callers hold what the borrowed ones do. -/
def Holding.start (r : Roles) (σ : Holding) : List Param → Holding
  | [] => σ
  | p :: ps =>
    (if p.mode = .borrowed then σ.forget p.var else σ.gain r p.var).start r ps

/-- What is known of a parameter before it is assigned. -/
structure Unassigned (r : Roles) (σ : Holding) (p : Param) : Prop where
  own : σ.own p.var = 0
  assigned : ¬r.never p.var
  derived : p.mode ≠ .borrowed → r.derived p.var = false

/-- Parameters are assigned the arguments of a call. -/
theorem Matches.start {modes : Option (List Mode)} : ∀ {ps : List Param}
    {xs : List Value} {i : Nat} {σ : Holding} {fr : Machine.Frame} {pf pf' : Plain.Frame},
    Matches pool r h A σ fr pf → (ps.map (·.var)).Nodup →
    (∀ k p, ps[k]? = some p → Borrow.takesOver modes (i + k) = !decide (p.mode = .borrowed)) →
    (∀ p ∈ ps, p.var < fr.vars.size) → (∀ p ∈ ps, Unassigned r σ p) →
    (∀ v ∈ lent modes i xs, Within h A v) →
    List.Forall₂ (fun v x => r.counted v = false → x.refs = 0) (ps.map (·.var)) xs →
    pf.assignAll (ps.map (·.var)) (xs.map (treeOf pool h)) = some pf' →
    Matches pool r h A (σ.start r ps) (assignedAll fr (ps.map (·.var)) xs) pf' ∧
      roots (σ.start r ps) (assignedAll fr (ps.map (·.var)) xs) =
        refsAll (handed modes i xs) + roots σ fr := by
  intro ps
  induction ps with
  | nil =>
    intro xs i σ fr pf pf' hm _ _ _ _ _ hbare hall
    cases hbare
    cases hall
    exact ⟨hm, by simp [Holding.start, assignedAll, pick]⟩
  | cons p ps ih =>
    intro xs i σ fr pf pf' hm hnd hmodes hsize hfresh hlent hbare hall
    rw [map_cons] at hbare hnd
    obtain ⟨x, xs, hx, hxs, rfl⟩ := forall₂_cons_left_iff.1 hbare
    obtain ⟨hp, hnd⟩ := nodup_cons.1 hnd
    have hsize' : ∀ q ∈ ps, q.var < (assigned fr p.var x).vars.size := by
      intro q hq
      simpa [assigned] using hsize q (mem_cons_of_mem p hq)
    have hmodes' : ∀ k q, ps[k]? = some q →
        Borrow.takesOver modes (i + 1 + k) = !decide (q.mode = .borrowed) := by
      intro k q hq
      have := hmodes (k + 1) q (by simpa using hq)
      rwa [show i + (k + 1) = i + 1 + k by omega] at this
    have hne : ∀ q ∈ ps, q.var ≠ p.var :=
      fun q hq he => hp (he ▸ mem_map_of_mem hq)
    have hfirst := hmodes 0 p rfl
    have hf := hfresh p (.head _)
    have hv := hsize p (.head _)
    rw [Nat.add_zero] at hfirst
    rw [lent, pick, hfirst] at hlent
    rw [handed, pick, hfirst, Holding.start]
    by_cases hmode : p.mode = .borrowed
    · simp only [hmode, decide_true, Bool.not_true, Bool.not_false, if_true,
        Bool.false_eq_true, if_false] at hlent ⊢
      have hfresh' : ∀ q ∈ ps, Unassigned r (σ.forget p.var) q := by
        intro q hq
        have hf := hfresh q (mem_cons_of_mem p hq)
        exact ⟨hf.own, hf.assigned, hf.derived⟩
      obtain ⟨hm', hroots⟩ := hm.forget hv hf.assigned hf.own hx (hlent x (.head _)) rfl
      obtain ⟨hm'', hroots'⟩ := ih hm' hnd hmodes' hsize' hfresh'
        (fun u hu => hlent u (mem_cons_of_mem x hu)) hxs hall
      exact ⟨hm'', by rw [← hroots, ← hroots']; rfl⟩
    · simp only [hmode, decide_false, Bool.not_false, Bool.not_true, if_true,
        Bool.false_eq_true, if_false] at hlent ⊢
      have hfresh' : ∀ q ∈ ps, Unassigned r (σ.gain r p.var) q := by
        intro q hq
        have hf := hfresh q (mem_cons_of_mem p hq)
        exact ⟨by simpa [Holding.gain, hne q hq] using hf.own, hf.assigned, hf.derived⟩
      obtain ⟨hm', hroots⟩ := hm.gain hv ⟨hf.own, hf.derived hmode, hf.assigned⟩ hx rfl
      obtain ⟨hm'', hroots'⟩ := ih hm' hnd hmodes' hsize' hfresh' hlent hxs hall
      refine ⟨hm'', ?_⟩
      rw [Value.refsAll_cons, add_assoc, add_left_comm, ← hroots, ← hroots']
      rfl

theorem start_own_of_notMem {x : Var} : ∀ {ps : List Param} {σ : Holding},
    x ∉ ps.map (·.var) → (σ.start r ps).own x = σ.own x := by
  intro ps
  induction ps with
  | nil => exact fun _ => rfl
  | cons p ps ih =>
    intro σ hx
    rw [map_cons, mem_cons, not_or] at hx
    rw [Holding.start, ih hx.2]
    split
    · rfl
    · simp [Holding.gain, hx.1]

/-- What a parameter owns once all are assigned. -/
theorem start_own {p : Param} : ∀ {ps : List Param} {σ : Holding},
    (ps.map (·.var)).Nodup → p ∈ ps → σ.own p.var = 0 → (σ.start r ps).own p.var =
      if p.mode ≠ .borrowed ∧ r.counted p.var then 1 else 0 := by
  intro ps
  induction ps with
  | nil => exact fun _ hp => nomatch hp
  | cons q ps ih =>
    intro σ hnd hp hown
    rw [map_cons, nodup_cons] at hnd
    rw [Holding.start]
    rcases mem_cons.1 hp with rfl | hp
    · rw [start_own_of_notMem hnd.1]
      split
      · next hb => simpa [hb, Holding.forget] using hown
      · next hb => simp [hb, Holding.gain]
    · have hne : p.var ≠ q.var := fun he => hnd.1 (he ▸ mem_map_of_mem hp)
      refine ih hnd.2 hp ?_
      split
      · exact hown
      · simpa [Holding.gain, hne] using hown

/-- A frame in which nothing is assigned. -/
theorem matches_empty (f : Func) (n : Nat) :
    Matches pool r h A ⟨fun _ => 0, fun _ => none⟩ ⟨f, default, [], Array.replicate n none⟩
      ⟨f, default, [], fun _ => none⟩ := by
  have hset : ∀ x, Machine.Frame.isSet ⟨f, default, [], Array.replicate n none⟩ x = false := by
    intro x
    unfold Machine.Frame.isSet
    dsimp only
    rw [Array.getElem?_replicate]
    split
    · rfl
    · rfl
  have hget : ∀ x, (Machine.Frame.get ⟨f, default, [], Array.replicate n none⟩ x).refs = 0 :=
    fun x => refs_of_not_isSet (hset x)
  refine ⟨rfl, rfl, rfl, hset, fun x _ => hset x, fun x _ => hget x, fun x _ p hp => ?_,
    fun x q hq => (nomatch hq), fun x t _ ht => (nomatch ht)⟩
  rw [hget] at hp
  exact absurd hp (Multiset.notMem_zero p)

end Several

end RefCount.Ownership
