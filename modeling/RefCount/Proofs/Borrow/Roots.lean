/-
The roots of variables. A variable leads back to a parameter if it is reached
from it by moves and projections. Where every variable has one definition it
leads back to at most one parameter, and the rounds that spread roots find
exactly that.

A root is only ever set to a parameter that the variable leads back to, and
never taken away again, so that each round but the last finds a new one; a
round that changes nothing has spread everything. A variable without a type
may end the search; nothing else does.
-/
import Mathlib
import RefCount.Borrow.Roots
import RefCount.Proofs.BitSet
import RefCount.Proofs.Ir.Check

namespace RefCount.Borrow

open Ir List Option Relation Array

variable {f : Func} {v p q : Var}
variable {x : Instr} {dst src : Var}

-- ======== single definitions

section Defs

variable {x y : Instr} {b : Block}

/-- Elements with the same value of a list whose values are all different. -/
theorem eq_of_nodup_filterMap {α β : Type} {g : α → Option β} {a b : α} {c : β} :
    ∀ {l : List α}, (l.filterMap g).Nodup → a ∈ l → b ∈ l → g a = some c → g b = some c →
    a = b := by
  intro l
  induction l with
  | nil => exact fun _ ha => nomatch ha
  | cons d l ih =>
    intro hnd ha hb hga hgb
    have hmem : ∀ e ∈ l, g e = some c → c ∈ l.filterMap g :=
      fun e he hge => mem_filterMap.2 ⟨e, he, hge⟩
    rw [filterMap_cons] at hnd
    rcases mem_cons.1 ha with rfl | ha'
    · rcases mem_cons.1 hb with rfl | hb'
      · rfl
      · rw [hga] at hnd
        exact absurd (hmem b hb' hgb) (nodup_cons.1 hnd).1
    · rcases mem_cons.1 hb with rfl | hb'
      · rw [hgb] at hnd
        exact absurd (hmem a ha' hga) (nodup_cons.1 hnd).1
      · refine ih ?_ ha' hb' hga hgb
        split at hnd
        · exact hnd
        · exact (nodup_cons.1 hnd).2

/-- The variables that instructions define are among all that are defined in
blocks. -/
theorem sublist_defs (f : Func) :
    (f.instrs.filterMap Instr.def?).Sublist (f.blocks.toList.flatMap Block.defs) := by
  unfold Func.instrs
  induction f.blocks.toList with
  | nil => exact .slnil
  | cons b bs ih =>
    rw [List.flatMap_cons, List.flatMap_cons, List.filterMap_append, Block.defs]
    exact (sublist_append_right _ _).append ih

/-- One instruction defines a variable. -/
theorem instr_unique (hf : f.defs.Nodup) (hx : x ∈ f.instrs) (hy : y ∈ f.instrs)
    (hxv : x.def? = some v) (hyv : y.def? = some v) : x = y :=
  eq_of_nodup_filterMap ((sublist_defs f).nodup (nodup_append.1 hf).2.1) hx hy hxv hyv

/-- No instruction defines a parameter. -/
theorem param_not_def (hf : f.defs.Nodup) {p : Param} (hp : p ∈ f.params)
    (hx : x ∈ f.instrs) : x.def? ≠ some p.var := by
  intro hd
  have hmem := (sublist_defs f).subset (mem_filterMap.2 ⟨x, hx, hd⟩)
  exact (nodup_append.1 hf).2.2 _ (mem_map_of_mem hp) _ hmem rfl

theorem blockParam_not_def (hf : f.defs.Nodup) (hb : b ∈ f.blocks) (hv : v ∈ b.params)
    (hx : x ∈ f.instrs) : x.def? ≠ some v := by
  intro hd
  obtain ⟨b', hb', hx'⟩ := mem_flatMap.1 hx
  have hnd := (nodup_append.1 hf).2.1
  rw [nodup_flatMap] at hnd
  have hvx : v ∈ b'.code.filterMap Instr.def? := mem_filterMap.2 ⟨x, hx', hd⟩
  by_cases hbb : b' = b
  · subst hbb
    have hblock := hnd.1 b' hb'
    rw [Block.defs, nodup_append] at hblock
    exact hblock.2.2 v hv v hvx rfl
  · have : Std.Symm (Function.onFun List.Disjoint Block.defs) := ⟨fun _ _ h => List.Disjoint.symm h⟩
    have hdisj := hnd.2.forall hb' (mem_toList_iff.2 hb) hbb
    exact hdisj (mem_append_right _ hvx) (mem_append_left _ hv)

/-- A parameter of a block is no parameter of the function. -/
theorem blockParam_ne_param (hf : f.defs.Nodup) (hb : b ∈ f.blocks) (hv : v ∈ b.params)
    {p : Param} (hp : p ∈ f.params) : v ≠ p.var := by
  rintro rfl
  refine (nodup_append.1 hf).2.2 p.var (mem_map_of_mem hp) p.var ?_ rfl
  exact mem_flatMap.2 ⟨b, mem_toList_iff.2 hb, mem_append_left _ hv⟩

end Defs

-- ======== leading

/-- A variable leads back to a parameter. -/
inductive Leads (f : Func) : Var → Var → Prop
  | param {p : Param} (hp : p ∈ f.params) : Leads f p.var p.var
  | step {dst src p : Var} {x : Instr} (hx : x ∈ f.instrs)
      (ha : aliasOf? x = some (dst, src)) (h : Leads f src p) : Leads f dst p

/-- What is made an alias is what is defined. -/
theorem def_of_aliasOf (h : aliasOf? x = some (dst, src)) : x.def? = some dst ∧ x.uses = [src] := by
  cases x with
  | move d s =>
    cases h
    exact ⟨rfl, rfl⟩
  | project d s _ _ =>
    cases h
    exact ⟨rfl, rfl⟩
  | _ => cases h

section

variable (hf : f.defs.Nodup)
include hf

/-- An alias leads where the old name leads, and nowhere else. -/
theorem leads_alias_iff (hx : x ∈ f.instrs)
    (ha : aliasOf? x = some (dst, src)) : Leads f dst p ↔ Leads f src p := by
  refine ⟨fun h => ?_, .step hx ha⟩
  have hdst := (def_of_aliasOf ha).1
  cases h with
  | param hp => exact absurd hdst (param_not_def hf hp hx)
  | step hy hb h =>
    obtain rfl := instr_unique hf hx hy hdst (def_of_aliasOf hb).1
    rw [ha] at hb
    obtain ⟨-, rfl⟩ := Prod.mk.inj (some.inj hb)
    exact h

/-- What is defined otherwise leads nowhere. -/
theorem not_leads_of_def (hx : x ∈ f.instrs) (hd : x.def? = some v)
    (ha : aliasOf? x = none) : ¬Leads f v p := by
  intro h
  cases h with
  | param hp => exact param_not_def hf hp hx hd
  | step hy hb h =>
    obtain rfl := instr_unique hf hx hy hd (def_of_aliasOf hb).1
    rw [ha] at hb
    cases hb

theorem not_leads_of_blockParam {b : Block} (hb : b ∈ f.blocks)
    (hv : v ∈ b.params) : ¬Leads f v p := by
  intro h
  cases h with
  | param hp => exact blockParam_ne_param hf hb hv hp rfl
  | step hy ha h => exact blockParam_not_def hf hb hv hy (def_of_aliasOf ha).1

theorem leads_param_iff {q : Param} (hq : q ∈ f.params) :
    Leads f q.var p ↔ p = q.var := by
  refine ⟨fun h => ?_, fun h => h ▸ .param hq⟩
  generalize hv : q.var = v at h
  cases h with
  | param hp => exact rfl
  | step hx ha h => exact absurd (hv ▸ (def_of_aliasOf ha).1) (param_not_def hf hq hx)

/-- A variable leads to one parameter at most. -/
theorem Leads.unique (hp : Leads f v p) (hq : Leads f v q) : p = q := by
  induction hp with
  | param hp => exact ((leads_param_iff hf hp).1 hq).symm
  | step hx ha _ ih => exact ih ((leads_alias_iff hf hx ha).1 hq)

end

-- ======== rounds

namespace Roots

variable {r : Roots} {s : Roots × Bool} {aliases : List (Var × Var)}

/-- The variables whose root has been found. -/
def found (r : Roots) : Finset Var := (Finset.range r.size).filter fun v => (r.getD v none).isSome

theorem card_found_le (r : Roots) : r.found.card ≤ r.size :=
  (Finset.card_le_card (Finset.filter_subset _ _)).trans (Finset.card_range _).le

/-- Roots that have been found are right. -/
def Sound (f : Func) (r : Roots) : Prop := ∀ v p, r.getD v none = some p → Leads f v p

/-- A root that is right is set. -/
theorem Sound.set (hr : Sound f r) (hv : v < r.size) (hp : Leads f v p) :
    Sound f (r.setIfInBounds v (some p)) ∧
      insert v r.found ⊆ Roots.found (r.setIfInBounds v (some p)) := by
  have hget := getD_setIfInBounds (x := some p) (d := none) hv
  refine ⟨fun u q hq => ?_, fun u hu => ?_⟩
  · rw [hget] at hq
    split at hq
    · next he =>
      rw [he, ← some.inj hq]
      exact hp
    · exact hr u q hq
  · rw [found, Finset.mem_filter, Array.size_setIfInBounds, hget]
    rcases Finset.mem_insert.1 hu with rfl | hu
    · rw [if_pos rfl]
      exact ⟨Finset.mem_range.2 hv, rfl⟩
    · obtain ⟨hlt, hsome⟩ := Finset.mem_filter.1 hu
      refine ⟨hlt, ?_⟩
      split
      · rfl
      · exact hsome

/-- A step that spreads roots: it finds right ones and takes none away, and if
it says that nothing has changed nothing has. -/
structure Spreads (f : Func) (s s' : Roots × Bool) : Prop where
  size : s'.1.size = s.1.size
  sound : Sound f s'.1
  found : s.1.found ⊆ s'.1.found
  changed : s'.2 = true → s.2 = true ∨ s.1.found.card < s'.1.found.card
  unchanged : s'.2 = false → s' = s

theorem Spreads.refl (h : Sound f s.1) : Spreads f s s := ⟨rfl, h, subset_rfl, .inl, fun _ => rfl⟩

theorem Spreads.trans {s' s'' : Roots × Bool} (h : Spreads f s s') (h' : Spreads f s' s'') :
    Spreads f s s'' where
  size := h'.size.trans h.size
  sound := h'.sound
  found := h.found.trans h'.found
  changed hc := by
    rcases h'.changed hc with hc' | hlt
    · exact (h.changed hc').imp id fun hlt => hlt.trans_le (Finset.card_le_card h'.found)
    · exact .inr ((Finset.card_le_card h.found).trans_lt hlt)
  unchanged hc := by
    have h₂ := h'.unchanged hc
    rw [h₂] at hc
    exact h₂.trans (h.unchanged hc)

/-- A variable of one of some aliases has no type. -/
def Untyped (n : Nat) (aliases : List (Var × Var)) : Prop := ∃ a ∈ aliases, n ≤ a.1 ∨ n ≤ a.2

theorem Untyped.mono {n : Nat} {l l' : List (Var × Var)} (h : Untyped n l) (hl : l ⊆ l') :
    Untyped n l' :=
  h.imp fun _ ha => ⟨hl ha.1, ha.2⟩

theorem get_ok (hv : v < r.size) : r.get v = .ok (r.getD v none) := by
  unfold get
  rw [Array.getD_eq_getD_getElem?, Array.getElem?_eq_getElem hv]
  rfl

theorem get_error (hv : r.size ≤ v) : r.get v = .error .variable := by
  unfold get
  rw [Array.getElem?_eq_none hv]

/-- Spreading a root along an alias, which fails only where a variable has no type. -/
theorem spread_spec (hf : f.defs.Nodup) {dst src : Var} {x : Instr} (hx : x ∈ f.instrs)
    (ha : aliasOf? x = some (dst, src)) (hs : Sound f s.1) :
    (∃ s', spread s (dst, src) = .ok s' ∧ Spreads f s s' ∧
      (s'.2 = false → ∀ p, s.1.getD src none = some p → s.1.getD dst none = some p)) ∨
    spread s (dst, src) = .error .variable ∧ Untyped s.1.size [(dst, src)] := by
  unfold spread
  rcases le_or_gt s.1.size src with hsrc | hsrc
  · rw [get_error hsrc]
    exact .inr ⟨rfl, _, mem_singleton_self _, .inr hsrc⟩
  rw [get_ok hsrc]
  cases hroot : s.1.getD src none with
  | none => exact .inl ⟨s, rfl, .refl hs, fun _ p hp => (by cases hp)⟩
  | some p =>
    rcases le_or_gt s.1.size dst with hdst | hdst
    · rw [get_error hdst]
      exact .inr ⟨rfl, _, mem_singleton_self _, .inl hdst⟩
    rw [get_ok hdst]
    left
    by_cases hsame : s.1.getD dst none = some p
    · refine ⟨s, ?_, .refl hs, fun _ q hq => by rw [hsame, ← hq]⟩
      show (if s.1.getD dst none = some p then _ else _) = _
      rw [if_pos hsame]
      rfl
    · refine ⟨(s.1.setIfInBounds dst (some p), true), ?_, ?_, fun h => (by cases h)⟩
      · show (if s.1.getD dst none = some p then _ else _) = _
        rw [if_neg hsame]
        rfl
      have hleads := hs src p hroot
      -- another root would be one that the variable leads to as well
      have hnone : s.1.getD dst none = none := by
        refine eq_none_iff_forall_ne_some.2 fun q hq => hsame ?_
        rw [hq, (hs dst q hq).unique hf (.step hx ha hleads)]
      obtain ⟨hsound, hfound⟩ := hs.set hdst (.step hx ha hleads)
      have hnew : dst ∉ s.1.found := by
        rw [found, Finset.mem_filter, hnone]
        exact fun h => absurd h.2 (by simp)
      refine ⟨by simp, hsound, (Finset.subset_insert _ _).trans hfound, fun _ => .inr ?_,
        fun h => (by cases h)⟩
      exact (Finset.card_lt_card (Finset.ssubset_insert hnew)).trans_le (Finset.card_le_card hfound)

section

variable (hf : f.defs.Nodup) (hall : aliases ⊆ f.instrs.filterMap aliasOf?)
include hf hall

/-- A round over aliases, which fails only where a variable has no type. -/
theorem foldlM_spread_spec
    (hs : Sound f s.1) : (∃ s', aliases.foldlM spread s = .ok s' ∧ Spreads f s s' ∧
      (s'.2 = false → ∀ a ∈ aliases, ∀ p, s.1.getD a.2 none = some p →
        s.1.getD a.1 none = some p)) ∨
    aliases.foldlM spread s = .error .variable ∧ Untyped s.1.size aliases := by
  induction aliases generalizing s with
  | nil => exact .inl ⟨s, rfl, .refl hs, fun _ a ha => nomatch ha⟩
  | cons a aliases ih =>
    obtain ⟨x, hx, ha⟩ := mem_filterMap.1 (hall (.head _))
    rw [foldlM_cons]
    rcases spread_spec hf hx ha hs with ⟨s₁, hs₁, hspread, hclosed⟩ | ⟨herr, hun⟩
    · rw [hs₁]
      rcases ih (s := s₁) (fun b hb => hall (mem_cons_of_mem a hb)) hspread.sound with
        ⟨s₂, hs₂, hspread', hclosed'⟩ | ⟨herr, hun⟩
      · refine .inl ⟨s₂, hs₂, hspread.trans hspread', fun hc b hb p hp => ?_⟩
        have hsame := hspread'.unchanged hc
        rw [hsame] at hc
        rcases mem_cons.1 hb with rfl | hb
        · exact hclosed hc p hp
        · have := hclosed' (by rw [hsame]; exact hc) b hb p
          rw [hspread.unchanged hc] at this
          exact this hp
      · exact .inr ⟨herr, hspread.size ▸ hun.mono (subset_cons_self a aliases)⟩
    · rw [herr]
      exact .inr ⟨rfl, hun.mono (by simp)⟩

/-- Rounds end, because each that changes something finds a root. -/
theorem settle_spec
    (hr : Sound f r) (rounds : Nat) (hrounds : r.size < rounds + r.found.card) :
    (∃ r', settle aliases rounds r = .ok r' ∧ r'.size = r.size ∧ Sound f r' ∧ r.found ⊆ r'.found ∧
      ∀ a ∈ aliases, ∀ p, r'.getD a.2 none = some p → r'.getD a.1 none = some p) ∨
    settle aliases rounds r = .error .variable ∧ Untyped r.size aliases := by
  induction rounds generalizing r with
  | zero =>
    have := card_found_le r
    omega
  | succ rounds ih =>
    unfold settle round
    rcases foldlM_spread_spec hf (s := (r, false)) hall hr with
      ⟨⟨r₁, changed⟩, hround, hspread, hclosed⟩ | ⟨herr, hun⟩
    · rw [hround]
      cases changed with
      | false =>
        obtain rfl : r₁ = r := congrArg Prod.fst (hspread.unchanged rfl)
        exact .inl ⟨r₁, rfl, rfl, hr, subset_rfl, hclosed rfl⟩
      | true =>
        have hsize := hspread.size
        have hcard := (hspread.changed rfl).resolve_left (by simp)
        dsimp only at hsize hcard
        rcases ih (r := r₁) hspread.sound (by omega) with ⟨r', hr', hsize', hsound, hsub, hcl⟩ | hun
        · exact .inl ⟨r', hr', hsize'.trans hsize, hsound, hspread.found.trans hsub, hcl⟩
        · exact .inr (hsize ▸ hun)
    · rw [herr]
      exact .inr ⟨rfl, hun⟩

end

/-- More rounds change nothing. -/
theorem settle_more {rounds more : Nat} (h : settle aliases rounds r ≠ .error .limit)
    (hle : rounds ≤ more) : settle aliases more r = settle aliases rounds r := by
  induction rounds generalizing r more with
  | zero => exact absurd rfl h
  | succ rounds ih =>
    obtain ⟨more, rfl⟩ := Nat.exists_eq_succ_of_ne_zero (Nat.ne_zero_of_lt hle)
    unfold settle at h ⊢
    cases hround : round aliases r with
    | error e => rfl
    | ok s =>
      obtain ⟨r₁, changed⟩ := s
      rw [hround] at h
      cases changed with
      | false => rfl
      | true => exact ih h (Nat.le_of_succ_le_succ hle)

/-- Parameters are their own roots. -/
theorem foldlM_params_spec {ps : List Param} (hps : ps ⊆ f.params) (hr : Sound f r) :
    (∃ r', ps.foldlM (fun (r : Roots) p => do
          let _ ← r.get p.var
          return r.setIfInBounds p.var (some p.var)) r = (.ok r' : Except Fault Roots) ∧
        r'.size = r.size ∧ Sound f r' ∧ r.found ⊆ r'.found ∧ ∀ p ∈ ps, p.var ∈ r'.found) ∨
    ps.foldlM (fun (r : Roots) p => do
        let _ ← r.get p.var return r.setIfInBounds p.var (some p.var)) r = .error .variable ∧
      ∃ p ∈ ps, r.size ≤ p.var := by
  induction ps generalizing r with
  | nil => exact .inl ⟨r, rfl, rfl, hr, subset_rfl, fun p hp => nomatch hp⟩
  | cons p ps ih =>
    rw [foldlM_cons]
    rcases le_or_gt r.size p.var with hv | hv
    · rw [get_error hv]
      exact .inr ⟨rfl, p, .head _, hv⟩
    rw [get_ok hv]
    obtain ⟨hsound, hsub⟩ := hr.set hv (.param (hps (.head _)))
    have hsize : (r.setIfInBounds p.var (some p.var)).size = r.size := size_setIfInBounds
    rcases ih (fun q hq => hps (mem_cons_of_mem p hq)) hsound with
      ⟨r', hr', hsize', hsound', hsub', hfound⟩ | ⟨herr, q, hq, hun⟩
    · refine .inl ⟨r', hr', hsize'.trans hsize, hsound',
        ((Finset.subset_insert _ _).trans hsub).trans hsub', fun q hq => ?_⟩
      rcases mem_cons.1 hq with rfl | hq
      · exact hsub' (hsub (Finset.mem_insert_self _ _))
      · exact hfound q hq
    · exact .inr ⟨herr, q, mem_cons_of_mem p hq, hsize ▸ hun⟩

/-- What so many rounds find. -/
def within (f : Func) (rounds : Nat) : Except Fault Roots :=
  ofParams f >>= settle (f.instrs.filterMap aliasOf?) rounds

/-- With enough rounds, roots are what leads to a variable; or a variable has
no type. -/
theorem within_spec (hf : f.defs.Nodup) {rounds : Nat} (hrounds : f.types.size < rounds) :
    (∃ r, within f rounds = .ok r ∧ r.size = f.types.size ∧
      ∀ v p, r.getD v none = some p ↔ Leads f v p) ∨
    within f rounds = .error .variable ∧ ((∃ p ∈ f.params, f.types.size ≤ p.var) ∨
      Untyped f.types.size (f.instrs.filterMap aliasOf?)) := by
  unfold within ofParams
  have hnone : Sound f (Array.replicate f.types.size none) := by
    intro v p hp
    rw [getD_of_replicate] at hp
    cases hp
  rcases foldlM_params_spec (fun _ hp => hp) hnone with
    ⟨r₀, hr₀, hsize₀, hsound₀, -, hparams⟩ | ⟨herr, p, hp, hun⟩
  · rw [hr₀]
    rw [size_replicate] at hsize₀
    rcases settle_spec hf (fun _ ha => ha) hsound₀ rounds (by omega) with
      ⟨r, hr, hsize, hsound, hsub, hclosed⟩ | ⟨herr, hun⟩
    · refine .inl ⟨r, hr, hsize.trans hsize₀, fun v p => ⟨hsound v p, fun h => ?_⟩⟩
      induction h with
      | @param p hp =>
        obtain ⟨q, hq⟩ := isSome_iff_exists.1 (Finset.mem_filter.1 (hsub (hparams p hp))).2
        rw [hq, (leads_param_iff hf hp).1 (hsound _ _ hq)]
      | @step dst src p x hx ha _ ih =>
        exact hclosed (dst, src) (mem_filterMap.2 ⟨x, hx, ha⟩) p ih
    · exact .inr ⟨herr, .inr (hsize₀ ▸ hun)⟩
  · rw [herr]
    rw [size_replicate] at hun
    exact .inr ⟨rfl, .inl ⟨p, hp, hun⟩⟩

theorem within_eq (hf : f.defs.Nodup) {rounds : Nat} (hrounds : f.types.size < rounds) :
    within f rounds = within f (f.types.size + 1) := by
  have hends : within f (f.types.size + 1) ≠ .error .limit := by
    rcases within_spec hf (Nat.lt_succ_self _) with ⟨r, hr, -⟩ | ⟨herr, -⟩
    · rw [hr]
      nofun
    · rw [herr]
      nofun
  unfold within at hends ⊢
  cases hparams : ofParams f with
  | error e => rfl
  | ok r =>
    rw [hparams] at hends
    exact settle_more hends hrounds

theorem ofFunc_eq_within (f : Func) :
    ofFunc f = within f ((f.types.size + 1) * (f.types.size + 2)) := rfl

theorem lt_rounds (n : Nat) : n < (n + 1) * (n + 2) := by nlinarith

/-- The roots are found, and a variable has one exactly if it leads back to
it. -/
theorem ofFunc_spec (hf : f.defs.Nodup) (hdefs : ∀ v ∈ f.defs, v < f.types.size)
    (hreads : ∀ b ∈ f.blocks, ∀ v ∈ b.reads, v ∈ f.defs) :
    ∃ r, ofFunc f = .ok r ∧ r.size = f.types.size ∧
      ∀ v p, r.getD v none = some p ↔ Leads f v p := by
  refine (within_spec hf (lt_rounds _)).resolve_right ?_
  rintro ⟨-, ⟨p, hp, hun⟩ | ⟨⟨dst, src⟩, ha, hun⟩⟩
  · exact absurd (hdefs _ (mem_append_left _ (mem_map_of_mem hp))) (not_lt.2 hun)
  · obtain ⟨x, hx, ha⟩ := mem_filterMap.1 ha
    obtain ⟨hd, hu⟩ := def_of_aliasOf ha
    obtain ⟨b, hb, hxb⟩ := mem_flatMap.1 hx
    rcases hun with hun | hun
    · refine absurd (hdefs dst ?_) (not_lt.2 hun)
      exact mem_append_right _ ((sublist_defs f).subset (mem_filterMap.2 ⟨x, hx, hd⟩))
    · refine absurd (hdefs src (hreads b (mem_toList_iff.1 hb) src ?_)) (not_lt.2 hun)
      exact mem_append_left _ (mem_flatMap.2 ⟨x, hxb, by simp [hu]⟩)

end Roots

theorem Leads.mem_params (h : Leads f v p) : ∃ q ∈ f.params, q.var = p := by
  induction h with
  | param hp => exact ⟨_, hp, rfl⟩
  | step _ _ _ ih => exact ih

theorem param?_var (hf : f.defs.Nodup) {q : Param} (hq : q ∈ f.params) :
    f.param? q.var = some q := by
  have hnd := (nodup_append.1 hf).1
  unfold Func.param?
  obtain ⟨q', hq'⟩ : ∃ q', f.params.find? (·.var = q.var) = some q' := by
    refine isSome_iff_exists.1 (find?_isSome.2 ⟨q, hq, ?_⟩)
    exact decide_eq_true rfl
  have hvar : q'.var = q.var := by simpa using find?_some hq'
  rw [hq', inj_on_of_nodup_map hnd (mem_of_find?_eq_some hq') hq hvar]

/-- What a borrowed parameter leads to is derived. -/
theorem derived_of_roots (hf : f.defs.Nodup) {r : Roots} (hr : Roots.ofFunc f = .ok r)
    (hroots : ∀ v p, r.getD v none = some p ↔ Leads f v p) :
    ∃ d, derived f = .ok d ∧ ∀ v, d.contains v = true ↔
      ∃ p ∈ f.params, p.mode = .borrowed ∧ Leads f v p.var := by
  unfold derived
  rw [hr]
  refine ⟨_, rfl, fun v => ?_⟩
  rw [BitSet.contains_ofList, List.contains_iff_mem, List.mem_filter, List.mem_range]
  cases hroot : r.getD v none with
  | none =>
    refine ⟨fun h => absurd h.2 (by simp), ?_⟩
    rintro ⟨p, -, -, hleads⟩
    rw [(hroots v p.var).2 hleads] at hroot
    cases hroot
  | some p =>
    have hleads := (hroots v p).1 hroot
    have hv : v < r.size := by
      by_contra hno
      rw [Array.getD_eq_getD_getElem?, Array.getElem?_eq_none (not_lt.1 hno)] at hroot
      cases hroot
    obtain ⟨q, hq, rfl⟩ := hleads.mem_params
    dsimp only
    rw [param?_var hf hq, any_some, decide_eq_true_eq]
    refine ⟨fun h => ⟨q, hq, h.2, hleads⟩, ?_⟩
    rintro ⟨q', hq', hmode, hleads'⟩
    have hvar := hleads.unique hf hleads'
    rw [inj_on_of_nodup_map (nodup_append.1 hf).1 hq hq' hvar]
    exact ⟨hv, hmode⟩

/-- The derived variables are found: those that lead back to a borrowed
parameter. -/
theorem derived_spec (hf : f.defs.Nodup) (hdefs : ∀ v ∈ f.defs, v < f.types.size)
    (hreads : ∀ b ∈ f.blocks, ∀ v ∈ b.reads, v ∈ f.defs) :
    ∃ d, derived f = .ok d ∧ ∀ v, d.contains v = true ↔
      ∃ p ∈ f.params, p.mode = .borrowed ∧ Leads f v p.var := by
  obtain ⟨r, hr, -, hroots⟩ := Roots.ofFunc_spec hf hdefs hreads
  exact derived_of_roots hf hr hroots

-- ======== chains of moves and projections

/-- A move or a projection makes a variable of another. -/
def Aliased (f : Func) (src dst : Var) : Prop :=
  .move dst src ∈ f.instrs ∨ ∃ variant field, .project dst src variant field ∈ f.instrs

theorem aliased_iff : Aliased f src dst ↔ ∃ x ∈ f.instrs, aliasOf? x = some (dst, src) := by
  constructor
  · rintro (h | ⟨variant, field, h⟩)
    · exact ⟨_, h, rfl⟩
    · exact ⟨_, h, rfl⟩
  · rintro ⟨x, hx, ha⟩
    cases x with
    | move d s =>
      cases ha
      exact .inl hx
    | project d s variant field =>
      cases ha
      exact .inr ⟨variant, field, hx⟩
    | _ => cases ha

/-- Leading is a chain of aliases from a parameter. -/
theorem leads_iff_chain :
    Leads f v p ↔ (∃ q ∈ f.params, q.var = p) ∧ ReflTransGen (Aliased f) p v := by
  constructor
  · intro h
    induction h with
    | param hp => exact ⟨⟨_, hp, rfl⟩, .refl⟩
    | step hx ha _ ih => exact ⟨ih.1, ih.2.tail (aliased_iff.2 ⟨_, hx, ha⟩)⟩
  · rintro ⟨⟨q, hq, rfl⟩, h⟩
    induction h with
    | refl => exact .param hq
    | tail _ ha ih =>
      obtain ⟨x, hx, ha⟩ := aliased_iff.1 ha
      exact .step hx ha ih

/-- Roots are exact where no variable is defined twice, in whatever order the
blocks and instructions come: rounds without a bound end, after no more of
them than one for each variable and one that changes nothing, and a variable
has a parameter as its root exactly if moves and projections lead from the
parameter to it. The variables that are derived are those whose root is
borrowed. There is no answer only if a variable of these has no type. -/
theorem roots_exact (hf : f.defs.Nodup) :
    (∀ rounds, f.types.size < rounds → Roots.within f rounds = Roots.ofFunc f) ∧
    ((∃ r d, Roots.ofFunc f = .ok r ∧ derived f = .ok d ∧
        (∀ v p, r.getD v none = some p ↔
          (∃ q ∈ f.params, q.var = p) ∧ ReflTransGen (Aliased f) p v) ∧
        ∀ v, d.contains v = true ↔
          ∃ p ∈ f.params, p.mode = .borrowed ∧ r.getD v none = some p.var) ∨
      Roots.ofFunc f = .error .variable ∧ derived f = .error .variable ∧
        ∃ v, f.types.size ≤ v ∧
          ((∃ p ∈ f.params, p.var = v) ∨ ∃ u, Aliased f u v ∨ Aliased f v u)) := by
  constructor
  · intro rounds hrounds
    rw [Roots.ofFunc_eq_within, Roots.within_eq hf hrounds, Roots.within_eq hf (Roots.lt_rounds _)]
  · rcases Roots.within_spec hf (Roots.lt_rounds _) with ⟨r, hr, -, hroots⟩ | ⟨herr, hun⟩
    · obtain ⟨d, hd, hder⟩ := derived_of_roots hf hr hroots
      refine .inl ⟨r, d, hr, hd, fun v p => (hroots v p).trans leads_iff_chain, fun v => ?_⟩
      simp only [hder, hroots]
    · have hder : derived f = .error .variable := by
        unfold derived
        rw [Roots.ofFunc_eq_within, herr]
        rfl
      refine .inr ⟨herr, hder, ?_⟩
      rcases hun with ⟨p, hp, hun⟩ | ⟨⟨dst, src⟩, ha, hun⟩
      · exact ⟨p.var, hun, .inl ⟨p, hp, rfl⟩⟩
      · have ha := aliased_iff.2 (mem_filterMap.1 ha)
        rcases hun with hun | hun
        · exact ⟨dst, hun, .inr ⟨src, .inl ha⟩⟩
        · exact ⟨src, hun, .inr ⟨dst, .inr ha⟩⟩

/-- The projection comes before the move that it rests on, and two moves that
are never reached go in a circle. -/
def tangled : Func where
  name := "tangled"
  params := [⟨0, .str, .borrowed⟩]
  result := .str
  blocks := #[⟨0, [], [.project 2 1 0 0], some (.ret 2)⟩,
    ⟨1, [], [.move 1 0, .move 3 4, .move 4 3], some (.jump (some 0) [])⟩]
  entry := 1
  types := #[.str, .str, .str, .str, .str]

theorem tangled_roots :
    tangled.defs.Nodup ∧ Roots.within tangled 6 = Roots.ofFunc tangled ∧
    ∃ r d, Roots.ofFunc tangled = .ok r ∧ derived tangled = .ok d ∧ d.contains 2 = true ∧
      ∀ v p, r.getD v none = some p ↔
        (∃ q ∈ tangled.params, q.var = p) ∧ ReflTransGen (Aliased tangled) p v := by
  have hnodup : tangled.defs.Nodup := by decide
  obtain ⟨hrounds, ⟨r, d, hr, hd, hroots, hder⟩ | ⟨herr, -⟩⟩ := roots_exact hnodup
  · refine ⟨hnodup, hrounds 6 (by decide), r, d, hr, hd, ?_, hroots⟩
    have hmove : Aliased tangled 0 1 := .inl (by simp [Func.instrs, tangled])
    have hproject : Aliased tangled 1 2 := .inr ⟨0, 0, by simp [Func.instrs, tangled]⟩
    refine (hder 2).2 ⟨_, mem_singleton_self _, rfl, (hroots 2 0).2 ⟨?_, ?_⟩⟩
    · exact ⟨_, mem_singleton_self _, rfl⟩
    · exact .tail (.single hmove) hproject
  · cases herr

end RefCount.Borrow
