/-
The walks over the type graph are exact, however types and aliases go in
circles.

# What a type stands for

From an alias there is one way on, so all that a chain of aliases leads to is
on one line, and a proper type or a stop is its end. A chain that neither ends
nor leaves the pool within as many steps as there are types has been at one of
its aliases twice: the bound stops no chain that ends.

# What types mention

A marked type has all that it mentions marked or waiting, and so has every
root (`Marking`). When nothing waits any more the marked types are closed, and
only types that are reached have ever been marked.
-/
import Mathlib
import RefCount.Types.Walk

namespace RefCount

open List Relation

variable {p : Pool} {a b c u v : TypeId} {n : Nat}

namespace Pool

-- ======== chains of aliases

/-- An alias and the type that it stands for. -/
def Alias (p : Pool) (a b : TypeId) : Prop := ∃ n, p.get? a = some (.synonym n (some b))

/-- A known type that is no alias. -/
def Proper (p : Pool) (u : TypeId) : Prop := ∃ d, p.get? u = some d ∧ d.kind ≠ .synonym

/-- What ends a chain without a type: an alias that is not resolved, a number
that the pool does not have, or an alias that the chain comes back to. -/
inductive Stops (p : Pool) (u : TypeId) : Prop
  | unresolved {n : String} (h : p.get? u = some (.synonym n none))
  | unknown (h : p.get? u = none)
  | cycle (h : TransGen p.Alias u u)

/-- An alias stands for one type. -/
theorem alias_rightUnique : Relator.RightUnique p.Alias := by
  rintro a b c ⟨n, hn⟩ ⟨m, hm⟩
  rw [hn] at hm
  exact Option.some.inj (TypeDef.synonym.inj (Option.some.inj hm)).2

theorem Proper.not_alias (h : p.Proper u) : ¬p.Alias u a := by
  rintro ⟨n, hn⟩
  obtain ⟨d, hd, hkind⟩ := h
  rw [hn] at hd
  exact hkind (Option.some.inj hd ▸ rfl)

/-- Chains of aliases end at a type that is no alias. -/
theorem Proper.eq_of_chain (h : p.Proper u) (hc : ReflTransGen p.Alias u v) : v = u :=
  (hc.cases_head.resolve_right fun ⟨_, ha, _⟩ => h.not_alias ha).symm

theorem Proper.ne_none (h : p.Proper u) : u ≠ .none := by
  rintro rfl
  obtain ⟨d, hd, -⟩ := h
  cases hd

/-- They end at one such type only. -/
theorem Proper.unique (hu : p.Proper u) (hv : p.Proper v) (hau : ReflTransGen p.Alias a u)
    (hav : ReflTransGen p.Alias a v) : u = v := by
  rcases ReflTransGen.total_of_right_unique alias_rightUnique hau hav with h | h
  · exact (hu.eq_of_chain h).symm
  · exact hv.eq_of_chain h

/-- What leads to such a type does not lead back to itself. -/
theorem Proper.not_cycle (hu : p.Proper u) (hc : ReflTransGen p.Alias a u) :
    ¬TransGen p.Alias a a := by
  induction hc using ReflTransGen.head_induction_on with
  | refl => exact fun h => (TransGen.head'_iff.1 h).elim fun _ hb => hu.not_alias hb.1
  | head hab _ ih =>
    intro h
    obtain ⟨b', hb', hback⟩ := TransGen.head'_iff.1 h
    obtain rfl := alias_rightUnique hab hb'
    exact ih (.tail' hback hab)

/-- Nor does it lead to where a chain stops. -/
theorem Proper.not_stops (hu : p.Proper u) (hau : ReflTransGen p.Alias a u)
    (hav : ReflTransGen p.Alias a v) : ¬p.Stops v := by
  intro hv
  -- a chain does not go on from a stop that is no cycle
  have hend (hno : ∀ b, ¬p.Alias v b) : v = u := by
    rcases ReflTransGen.total_of_right_unique alias_rightUnique hau hav with h | h
    · exact hu.eq_of_chain h
    · exact h.cases_head.resolve_right fun ⟨b, hb, _⟩ => hno b hb
  obtain ⟨d, hd, hkind⟩ := hu
  cases hv with
  | unresolved h =>
    obtain rfl := hend fun b ⟨_, hb⟩ => by simp [h] at hb
    rw [h] at hd
    exact hkind (Option.some.inj hd ▸ rfl)
  | unknown h =>
    obtain rfl := hend fun b ⟨_, hb⟩ => by simp [h] at hb
    rw [h] at hd
    cases hd
  | cycle h =>
    rcases ReflTransGen.total_of_right_unique alias_rightUnique hau hav with huv | hvu
    · obtain rfl := Proper.eq_of_chain ⟨d, hd, hkind⟩ huv
      exact Proper.not_cycle ⟨d, hd, hkind⟩ .refl h
    · exact Proper.not_cycle ⟨d, hd, hkind⟩ hvu h

-- ======== underlying types

/-- What is found in some steps stands at the end of the chain. -/
theorem underlyingWithin_proper (h : p.underlyingWithin n a = u) (hu : u ≠ .none) :
    ReflTransGen p.Alias a u ∧ p.Proper u := by
  fun_induction underlyingWithin p n a with
  | case1 | case2 | case3 => exact absurd h.symm hu
  | case4 n a m b hb ih => exact (ih h).imp_left (.head ⟨m, hb⟩)
  | case5 n a d hno hno' hd =>
    subst h
    refine ⟨.refl, d, hd, fun hkind => ?_⟩
    cases d with
    | synonym m target =>
      cases target with
      | none => exact hno m rfl
      | some b => exact hno' m b rfl
    | builtin b => cases b <;> cases hkind
    | _ => cases hkind

/-- If nothing is found the chain stops, or is as long as the steps. -/
theorem underlyingWithin_none (h : p.underlyingWithin n a = .none) :
    (∃ u, ReflTransGen p.Alias a u ∧ p.Stops u) ∨
      ∃ chain : Nat → TypeId, chain 0 = a ∧ ∀ i < n, p.Alias (chain i) (chain (i + 1)) := by
  fun_induction underlyingWithin p n a with
  | case1 a => exact .inr ⟨fun _ => a, rfl, fun i hi => absurd hi (Nat.not_lt_zero i)⟩
  | case2 n a hget => exact .inl ⟨a, .refl, .unknown hget⟩
  | case3 n a m hget => exact .inl ⟨a, .refl, .unresolved hget⟩
  | case4 n a m b hget ih =>
    rcases ih h with ⟨u, hu, hstops⟩ | ⟨chain, rfl, hchain⟩
    · exact .inl ⟨u, .head ⟨m, hget⟩ hu, hstops⟩
    · refine .inr ⟨fun i => i.casesOn a chain, rfl, fun i hi => ?_⟩
      cases i with
      | zero => exact ⟨m, hget⟩
      | succ i => exact hchain i (Nat.lt_of_succ_lt_succ hi)
  | case5 n a d hno hno' hd =>
    rw [h] at hd
    cases hd

theorem lt_size_of_get {d : TypeDef} (h : p.get? a = some d) : 0 ≤ a ∧ a.toNat < p.size := by
  unfold get? at h
  split at h
  · cases h
  · next ha => exact ⟨not_lt.1 ha, (Array.getElem?_eq_some_iff.1 h).1⟩

/-- A chain longer than the pool comes back to itself. -/
theorem stops_of_long {chain : Nat → TypeId}
    (h : ∀ i < p.size + 1, p.Alias (chain i) (chain (i + 1))) :
    ∃ u, ReflTransGen p.Alias (chain 0) u ∧ p.Stops u := by
  have hlt (i : Nat) (hi : i < p.size + 1) : 0 ≤ chain i ∧ (chain i).toNat < p.size :=
    (h i hi).elim fun _ hn => lt_size_of_get hn
  have hsteps (i k : Nat) (hk : i + k ≤ p.size + 1) :
      ReflTransGen p.Alias (chain i) (chain (i + k)) := by
    induction k with
    | zero => exact .refl
    | succ k ih => exact (ih (Nat.le_of_succ_le hk)).tail (h (i + k) hk)
  obtain ⟨i, hi, j, hj, hne, heq⟩ := Finset.exists_ne_map_eq_of_card_lt_of_maps_to
    (s := Finset.range (p.size + 1)) (t := Finset.range p.size) (f := fun i => (chain i).toNat)
    (by simp) fun i hi => Finset.mem_range.2 (hlt i (Finset.mem_range.1 hi)).2
  rw [Finset.mem_range] at hi hj
  wlog hij : i < j generalizing i j
  · exact this j hj i hi hne.symm heq.symm (hne.lt_or_gt.resolve_left hij)
  have heq : chain j = chain i := by
    rw [← Int.toNat_of_nonneg (hlt i hi).1, ← Int.toNat_of_nonneg (hlt j hj).1]
    exact congrArg Int.ofNat heq.symm
  have hback := hsteps (i + 1) (j - (i + 1)) (by omega)
  rw [Nat.add_sub_cancel' hij, heq] at hback
  exact ⟨chain i, by simpa using hsteps 0 i (by omega), .cycle (.head' (h i hi) hback)⟩

/-- Nothing is found exactly where the chain stops. -/
theorem underlying_eq_none_iff :
    p.underlying a = .none ↔ ∃ u, ReflTransGen p.Alias a u ∧ p.Stops u := by
  constructor
  · intro h
    rcases underlyingWithin_none h with hstops | ⟨chain, rfl, hchain⟩
    · exact hstops
    · exact stops_of_long hchain
  · rintro ⟨v, hav, hstops⟩
    by_contra hne
    obtain ⟨hau, hu⟩ := underlyingWithin_proper rfl hne
    exact hu.not_stops hau hav hstops

/-- What is found is the type at the end of the chain. -/
theorem underlying_eq_iff :
    p.underlying a = u ∧ u ≠ .none ↔ ReflTransGen p.Alias a u ∧ p.Proper u := by
  refine ⟨fun h => underlyingWithin_proper h.1 h.2, fun ⟨hau, hu⟩ => ⟨?_, hu.ne_none⟩⟩
  by_cases hnone : p.underlying a = .none
  · obtain ⟨v, hav, hstops⟩ := underlying_eq_none_iff.1 hnone
    exact absurd hstops (hu.not_stops hau hav)
  · obtain ⟨hav, hv⟩ := underlyingWithin_proper rfl hnone
    exact hv.unique hu hav hau

-- ======== what types mention

end Pool

/-- What a type mentions: its element or its target, its parameters, its
result and its parts, and the types of its fields. -/
inductive TypeDef.Mentions : TypeDef → TypeId → Prop
  | elem {e : TypeId} : Mentions (.list e) e
  | target {n : String} {b : TypeId} : Mentions (.synonym n (some b)) b
  | param {ps : List TypeId} {b r : TypeId} (hb : b ∈ ps) : Mentions (.fn ps r) b
  | result {ps : List TypeId} {r : TypeId} : Mentions (.fn ps r) r
  | part {es : List TypeId} {b : TypeId} (hb : b ∈ es) : Mentions (.tuple es) b
  | field {n : String} {fs : List Field} {f : Field} (hf : f ∈ fs) :
      Mentions (.record n (some fs)) f.type
  | variant {n : String} {vs : List Variant} {v : Variant} {f : Field} (hv : v ∈ vs)
      (hf : f ∈ v.fields) : Mentions (.enum n (some vs)) f.type

/-- What a definition lists is what it mentions. -/
theorem TypeDef.mem_mentions {d : TypeDef} (hb : b ≠ .none) :
    b ∈ d.mentions ↔ d.Mentions b := by
  simp only [mentions, mem_cons, mem_append, mem_flatMap, mem_map]
  constructor
  · rintro (helem | hresult | hparam | ⟨v, hv, f, hf, rfl⟩)
    · cases d with
      | list e => exact helem ▸ .elem
      | synonym n target =>
        cases target with
        | none => exact absurd helem hb
        | some target => exact helem ▸ .target
      | _ => exact absurd helem hb
    · cases d with
      | fn ps r => exact hresult ▸ .result
      | _ => exact absurd hresult hb
    · cases d with
      | fn ps r => exact .param hparam
      | tuple es => exact .part hparam
      | _ => cases hparam
    · cases d with
      | record n fs =>
        cases fs with
        | none => cases hv
        | some fs =>
          obtain rfl := mem_singleton.1 hv
          exact .field hf
      | enum n vs =>
        cases vs with
        | none => cases hv
        | some vs => exact .variant hv hf
      | _ => cases hv
  · rintro (_ | _ | hb | _ | hb | hf | ⟨hv, hf⟩)
    · exact .inl rfl
    · exact .inl rfl
    · exact .inr (.inr (.inl hb))
    · exact .inr (.inl rfl)
    · exact .inr (.inr (.inl hb))
    · exact .inr (.inr (.inr ⟨_, mem_singleton_self _, _, hf, rfl⟩))
    · exact .inr (.inr (.inr ⟨_, hv, _, hf, rfl⟩))

namespace Pool

/-- A type is in the pool. -/
def Has (p : Pool) (a : TypeId) : Prop := ∃ d, p.get? a = some d

/-- A type mentions another one in its definition. -/
def Mentions (p : Pool) (a b : TypeId) : Prop := ∃ d, p.get? a = some d ∧ d.Mentions b

-- ======== marks

variable {roots waiting : List TypeId} {seen : Array Bool}

/-- A type has been seen. -/
def Marked (seen : Array Bool) (a : TypeId) : Prop := 0 ≤ a ∧ seen[a.toNat]? = some true

/-- What is marked and what waits while the types that some roots mention are
marked. -/
structure Marking (p : Pool) (roots : List TypeId) (seen : Array Bool) (waiting : List TypeId) :
    Prop where
  size : seen.size = p.size
  reached : ∀ a, p.Has a → Marked seen a ∨ a ∈ waiting → ∃ r ∈ roots, ReflTransGen p.Mentions r a
  roots : ∀ r ∈ roots, p.Has r → Marked seen r ∨ r ∈ waiting
  closed : ∀ a b, Marked seen a → p.Mentions a b → p.Has b → Marked seen b ∨ b ∈ waiting

theorem Has.ne_none (h : p.Has a) : a ≠ .none := by
  rintro rfl
  obtain ⟨d, hd⟩ := h
  cases hd

theorem not_marked_replicate : ¬Marked (Array.replicate n false) a := by
  rintro ⟨-, h⟩
  rw [Array.getElem?_replicate] at h
  split at h <;> cases h

/-- At first nothing is seen, and the roots wait. -/
theorem Marking.start : p.Marking roots (Array.replicate p.size false) roots where
  size := Array.size_replicate
  reached a _ h := ⟨a, h.resolve_left not_marked_replicate, .refl⟩
  roots _ hr _ := .inr hr
  closed _ _ h := absurd h not_marked_replicate

/-- A type that is seen or not there is passed over. -/
theorem Marking.skip (h : p.Marking roots seen (a :: waiting)) (ha : p.Has a → Marked seen a) :
    p.Marking roots seen waiting := by
  have hdrop {b : TypeId} (hb : p.Has b) (hm : Marked seen b ∨ b ∈ a :: waiting) :
      Marked seen b ∨ b ∈ waiting := by
    rcases hm with hm | hm
    · exact .inl hm
    · rcases mem_cons.1 hm with rfl | hm
      · exact .inl (ha hb)
      · exact .inr hm
  exact ⟨h.size, fun b hb hm => h.reached b hb (hm.imp_right (mem_cons_of_mem a)),
    fun r hr hhas => hdrop hhas (h.roots r hr hhas),
    fun b c hb hbc hc => hdrop hc (h.closed b c hb hbc hc)⟩

theorem marked_set (ha : 0 ≤ a) (hlt : a.toNat < seen.size) :
    Marked (seen.setIfInBounds a.toNat true) b ↔ b = a ∨ Marked seen b := by
  unfold Marked
  rw [Array.getElem?_setIfInBounds]
  by_cases hab : b = a
  · subst hab
    simp [ha, hlt]
  · refine (and_congr_right fun hb => ?_).trans (or_iff_right hab).symm
    rw [if_neg fun h => hab ?_]
    rw [← Int.toNat_of_nonneg hb, ← h, Int.toNat_of_nonneg ha]

/-- A type is seen, and what it mentions waits. -/
theorem Marking.visit (h : p.Marking roots seen (a :: waiting)) {d : TypeDef}
    (hd : p.get? a = some d) :
    p.Marking roots (seen.setIfInBounds a.toNat true) (d.mentions.reverse ++ waiting) := by
  obtain ⟨ha, hlt⟩ := lt_size_of_get hd
  have hmarked := fun b => marked_set (b := b) ha (h.size ▸ hlt)
  have hmention {b : TypeId} (hb : p.Has b) : b ∈ d.mentions.reverse ↔ p.Mentions a b := by
    rw [mem_reverse, TypeDef.mem_mentions hb.ne_none]
    exact ⟨fun h => ⟨d, hd, h⟩, fun ⟨d', hd', h⟩ => Option.some.inj (hd.symm.trans hd') ▸ h⟩
  have hkeep {b : TypeId} (hm : Marked seen b ∨ b ∈ a :: waiting) :
      Marked (seen.setIfInBounds a.toNat true) b ∨ b ∈ d.mentions.reverse ++ waiting := by
    rw [hmarked, mem_append]
    rcases hm with hm | hm
    · exact .inl (.inr hm)
    · exact (mem_cons.1 hm).imp .inl .inr
  refine ⟨Array.size_setIfInBounds.trans h.size, fun b hb hm => ?_,
    fun r hr hhas => hkeep (h.roots r hr hhas), fun b c hb hbc hc => ?_⟩
  · rw [hmarked, mem_append, hmention hb] at hm
    obtain ⟨r, hr, hreach⟩ := h.reached a ⟨d, hd⟩ (.inr (.head _))
    rcases hm with (rfl | hm) | hm | hm
    · exact ⟨r, hr, hreach⟩
    · exact h.reached b hb (.inl hm)
    · exact ⟨r, hr, hreach.tail hm⟩
    · exact h.reached b hb (.inr (mem_cons_of_mem a hm))
  · rcases (hmarked b).1 hb with rfl | hb
    · exact .inr (mem_append_left _ ((hmention hc).2 hbc))
    · exact hkeep (h.closed b c hb hbc hc)

/-- In the end nothing waits. -/
theorem Marking.mark (h : p.Marking roots seen waiting) :
    p.Marking roots (p.mark seen waiting) [] := by
  fun_induction Pool.mark p seen waiting with
  | case1 => exact h
  | case2 seen a waiting hno ih =>
    refine ih (h.skip fun ⟨d, hd⟩ => ?_)
    rw [hno] at hd
    cases hd
  | case3 seen a waiting d hd hnew ih => exact ih (h.visit hd)
  | case4 seen a waiting d hd hold ih =>
    obtain ⟨hpos, hlt⟩ := lt_size_of_get hd
    refine ih (h.skip fun _ => ⟨hpos, ?_⟩)
    rw [Array.getElem?_eq_getElem (h.size ▸ hlt)] at hold ⊢
    simpa using hold

/-- What is reached is what has been seen. -/
theorem mem_reachable_iff_marked :
    a ∈ p.reachable roots ↔ Marked (p.mark (Array.replicate p.size false) roots) a := by
  have hsize := (@Marking.start p roots).mark.size
  simp only [reachable, mem_map, mem_filter, mem_range]
  constructor
  · rintro ⟨i, ⟨hi, hmark⟩, rfl⟩
    have hget := Array.getElem?_eq_getElem (hi.trans_eq hsize.symm)
    rw [Array.getD_eq_getD_getElem?, hget] at hmark
    exact ⟨Int.natCast_nonneg i, hget.trans (congrArg some hmark)⟩
  · rintro ⟨hpos, hmark⟩
    refine ⟨a.toNat, ⟨hsize ▸ (Array.getElem?_eq_some_iff.1 hmark).1, ?_⟩,
      Int.toNat_of_nonneg hpos⟩
    rw [Array.getD_eq_getD_getElem?, hmark, Option.getD_some]

/-- What is reached are the types that a root leads to. -/
theorem mem_reachable :
    a ∈ p.reachable roots ↔ p.Has a ∧ ∃ r ∈ roots, ReflTransGen p.Mentions r a := by
  have h := (@Marking.start p roots).mark
  rw [mem_reachable_iff_marked]
  constructor
  · intro ha
    have hlt := h.size ▸ (Array.getElem?_eq_some_iff.1 ha.2).1
    have hhas : p.Has a := by
      rw [Has, get?, if_neg (not_lt.2 ha.1)]
      exact ⟨_, Array.getElem?_eq_getElem hlt⟩
    exact ⟨hhas, h.reached a hhas (.inl ha)⟩
  · rintro ⟨ha, r, hr, hreach⟩
    induction hreach with
    | refl => exact (h.roots r hr ha).resolve_right not_mem_nil
    | tail _ hbc ih =>
      have hmarked := ih (hbc.imp fun _ hd => hd.1)
      exact (h.closed _ _ hmarked hbc ha).resolve_right not_mem_nil

/-- They are listed in increasing order. -/
theorem reachable_sorted : (p.reachable roots).Pairwise (· < ·) :=
  (pairwise_lt_range.filter _).map _ fun _ _ h => Int.ofNat_lt.2 h

/-- The types that roots reach come in order of their numbers, each once: they
are the known types to which a way over what types mention leads. A type
stands for the first type that is no alias on its chain of aliases, however
long, and for none exactly if the chain has an alias that is not resolved,
leaves the pool or is cyclic. -/
theorem walks_exact (p : Pool) (roots : List TypeId) (a : TypeId) :
    (p.reachable roots).Pairwise (· < ·) ∧
    (a ∈ p.reachable roots ↔ p.Has a ∧ ∃ r ∈ roots, ReflTransGen p.Mentions r a) ∧
    (∀ u, p.underlying a = u ∧ u ≠ .none ↔ ReflTransGen p.Alias a u ∧ p.Proper u) ∧
    (p.underlying a = .none ↔ ∃ u, ReflTransGen p.Alias a u ∧ p.Stops u) :=
  ⟨reachable_sorted, mem_reachable, fun _ => underlying_eq_iff, underlying_eq_none_iff⟩

end Pool

end RefCount
