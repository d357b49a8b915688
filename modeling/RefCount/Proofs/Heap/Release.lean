/-
Releasing references. Releasing values takes away the references that they
hold; an object whose last reference goes is freed, and what it held is
released in turn.

# The argument

What still waits to be released counts as references from outside. Taking one
away either lowers a count, or frees an object and lets the references in its
fields wait: either way the counts are exact for what waits from then on. A
freed object is one that nothing refers to, so no reference dangles, and every
free uses up one of the objects that there are, so the budget is not exceeded,
and what has been freed in the end is what is no longer there (`Released`).

What an object releases when it is freed is the matter of its descriptor. All
that is asked is that it releases the references that its fields hold
(`Complete`), as an object without a descriptor does.
-/
import Mathlib
import RefCount.Proofs.Heap.Exact

namespace RefCount.Machine

open Value List Finset

variable {w : World} {p : Address} {c : Cell} {v : Value} {R : Multiset Address}
  {live : Finset Address}

namespace Heap

variable {h h' : Heap} {p q : Address} {R : Multiset Address}
  {live : Finset Address}
variable {c : Cell} {h'' : Heap} {live' : Finset Address}

-- ======== a reference less

/-- A lower count leaves all objects as they are. -/
theorem obj_less (hc : h.find p = .ok c) (q : Address) :
    (h.setCell p c.less).obj? q = h.obj? q := by
  unfold obj?
  rw [find_setCell]
  by_cases hq : q = p
  · subst hq
    rw [if_pos rfl, if_neg (by simp [Cell.less, not_freed_of_find hc]), hc]
    rfl
  · rw [if_neg hq]

/-- Taking a reference away that is not the last. -/
theorem Counts.less (hx : h.Counts ({p} + R) live) (hc : h.find p = .ok c) :
    (h.setCell p c.less).Counts R live where
  mem q := by
    unfold Live
    rw [obj_less hc]
    exact hx.mem q
  count q := by
    have hheld : ∑ q ∈ live, (h.setCell p c.less).held q = ∑ q ∈ live, h.held q :=
      Finset.sum_congr rfl fun q _ => held_congr (obj_less hc q)
    have hq := hx.count q
    rw [hheld]
    rw [add_assoc, Multiset.count_add, Nat.cast_add] at hq
    unfold countAt
    rw [find_setCell]
    by_cases hqp : q = p
    · subst hqp
      rw [if_pos rfl, if_neg (by simp [Cell.less, not_freed_of_find hc])]
      rw [countAt_of_find hc, Multiset.count_singleton_self] at hq
      show c.count - 1 = _
      rw [hq]
      push_cast
      ring
    · have hzero : Multiset.count q {p} = 0 := by simp [hqp]
      rw [if_neg hqp]
      rw [hzero] at hq
      unfold countAt at hq
      simpa using hq

/-- Freeing an object whose last reference is taken away: what it held is left
to be released. -/
theorem Counts.freed {c : Cell} (hx : h.Counts ({p} + R) live)
    (hc : h.find p = .ok c) (hlast : c.count = 1) : ((h.setCell p c.less).freeCell p c.less).Counts
      (refsAll c.object.fields + R) (live.erase p) := by
  set h' := (h.setCell p c.less).freeCell p c.less with hh'
  have hfind : ∀ q, h'.find q = if q = p then .error (.useAfterFree p) else h.find q := by
    intro q
    rw [hh', find_freeCell, find_setCell]
    by_cases hq : q = p
    · rw [if_pos hq, if_pos hq]
    · rw [if_neg hq, if_neg hq, if_neg hq]
  have hobj : ∀ q, q ≠ p → h'.obj? q = h.obj? q := by
    intro q hq
    unfold obj?
    rw [hfind, if_neg hq]
  have hpl : p ∈ live := (hx.mem p).2 (live_of_find hc)
  have hsum : ∑ q ∈ live, h.held q =
      refsAll c.object.fields + ∑ q ∈ live.erase p, h'.held q := by
    rw [← add_sum_erase live h.held hpl, held_of_find hc]
    congr 1
    exact sum_congr rfl fun q hq => (held_congr (hobj q (ne_of_mem_erase hq))).symm
  refine ⟨fun q => ?_, fun q => ?_⟩
  · rw [Finset.mem_erase, hx.mem]
    unfold Live
    by_cases hq : q = p
    · unfold obj?
      rw [hfind, if_pos hq]
      simp [hq]
    · rw [hobj q hq]
      simp [hq]
  · have hq := hx.count q
    rw [hsum] at hq
    have hcomm : {p} + R + (refsAll c.object.fields +
          ∑ q ∈ live.erase p, h'.held q) =
        {p} + (refsAll c.object.fields + R + ∑ q ∈ live.erase p, h'.held q) := by
      abel
    rw [hcomm, Multiset.count_add, Nat.cast_add] at hq
    unfold countAt
    rw [hfind]
    by_cases hqp : q = p
    · rw [if_pos hqp]
      rw [hqp, countAt_of_find hc, hlast, Multiset.count_singleton_self] at hq
      rw [hqp]
      show (0 : Int) = _
      omega
    · have hzero : Multiset.count q {p} = 0 := by simp [hqp]
      rw [if_neg hqp]
      rw [hzero] at hq
      unfold countAt at hq
      simpa using hq

-- ======== shrinking

/-- Objects may have been freed, and nothing else has happened to them. -/
def Shrinks (h h' : Heap) : Prop := ∀ p, h'.Live p → h'.obj? p = h.obj? p

theorem Shrinks.refl : Shrinks h h := fun _ _ => rfl

theorem Shrinks.trans (hs : Shrinks h h') (hs' : Shrinks h' h'') : Shrinks h h'' := by
  intro p hp
  have hobj := hs' p hp
  have hp' : h'.Live p := by
    unfold Live at hp ⊢
    rw [← hobj]
    exact hp
  rw [hobj, hs p hp']

/-- A freed object leaves all others alone. -/
theorem shrinks_freed (hc : h.find p = .ok c) :
    Shrinks h ((h.setCell p c.less).freeCell p c.less) := by
  intro q hq
  have hqp : q ≠ p := by
    rintro rfl
    obtain ⟨c', hc'⟩ := hq.find
    rw [find_freeCell, if_pos rfl] at hc'
    cases hc'
  rw [← obj_less hc q]
  unfold obj?
  rw [find_freeCell, if_neg hqp]

theorem Shrinks.agree (hs : Shrinks h h') : Agree h h' := fun p _ hp => hs p hp

/-- Objects may have been freed, and as many have been as are no longer
there. -/
structure Released (h : Heap) (live : Finset Address) (h' : Heap) (live' : Finset Address) :
    Prop where
  shrinks : Shrinks h h'
  frees : h'.frees + live'.card = h.frees + live.card
  next : h'.next = h.next
  vacant : ∀ p, h'.cell? p = none ↔ h.cell? p = none

/-- Releasing takes no memory. -/
theorem Released.hasRoom (hr : Released h live h' live') (hroom : h.HasRoom) : h'.HasRoom := by
  unfold HasRoom nextBase at *
  rw [hr.vacant, hr.next]
  exact hroom

theorem Released.trans {live'' : Finset Address} (hr : Released h live h' live')
    (hr' : Released h' live' h'' live'') : Released h live h'' live'' :=
  ⟨hr.shrinks.trans hr'.shrinks, hr'.frees.trans hr.frees, hr'.next.trans hr.next,
    fun p => (hr'.vacant p).trans (hr.vacant p)⟩

/-- A lower count frees nothing. -/
theorem released_less (hc : h.find p = .ok c) : Released h live (h.setCell p c.less) live :=
  ⟨fun q _ => obj_less hc q, rfl, rfl, insert_eq_none_iff (cell_ne_none_of_find hc)⟩

theorem released_freed (hc : h.find p = .ok c) (hp : p ∈ live) :
    Released h live ((h.setCell p c.less).freeCell p c.less) (live.erase p) where
  shrinks := shrinks_freed hc
  frees := by
    have hcard := Finset.card_erase_add_one hp
    show h.frees + 1 + (live.erase p).card = h.frees + live.card
    omega
  next := rfl
  vacant q := by
    have hset := insert_eq_none_iff (h := h) (c := c.less) (cell_ne_none_of_find hc)
    refine (insert_eq_none_iff (h := h.setCell p c.less) ?_ q).trans (hset q)
    exact fun hno => cell_ne_none_of_find hc ((hset p).1 hno)

/-- There is a cell for every object. -/
theorem Live.mem_keys (hp : h.Live p) : p ∈ h.cells.keys.toFinset := by
  obtain ⟨c, hc⟩ := hp.find
  rw [List.mem_toFinset, Std.HashMap.mem_keys, ← Std.HashMap.isSome_getElem?_iff_mem]
  unfold Heap.find cell? at hc
  split at hc
  · cases hc
  · next hcell => rw [hcell]; rfl

/-- There are no more objects than cells. -/
theorem Counts.card_le (hx : h.Counts R live) : live.card ≤ h.cells.size := by
  have hsub : live ⊆ h.cells.keys.toFinset := fun p hp => ((hx.mem p).1 hp).mem_keys
  calc live.card ≤ h.cells.keys.toFinset.card := card_le_card hsub
    _ ≤ h.cells.keys.length := List.toFinset_card_le _
    _ = h.cells.size := Std.HashMap.length_keys

end Heap

-- ======== release

/-- Freeing an object releases the references that its fields hold. -/
def Complete (env : Env) (o : Object) : Prop :=
  ∃ vs, tasksOf env o = vs.map .value ∧ refsAll vs = refsAll o.fields

/-- Without descriptors all fields are released. -/
theorem complete_of_drops (henv : env.drops = none) (o : Object) : Complete env o := by
  refine ⟨o.fields, ?_, rfl⟩
  unfold tasksOf descriptor?
  rw [henv]

/-- Every object that there is releases the references that its fields hold. -/
def AllComplete (env : Env) (h : Heap) : Prop :=
  ∀ p o, h.obj? p = some o → Complete env o

variable {E : RunError → Prop} {env : Env}

theorem AllComplete.shrinks {h h' : Heap} (hc : AllComplete env h)
    (hs : Heap.Shrinks h h') : AllComplete env h' := by
  intro p o ho
  refine hc p o ?_
  rw [← hs p (by unfold Heap.Live; rw [ho]; rfl)]
  exact ho

/-- Taking away a reference to an object: a count is lowered, and the object
comes back if it was the last. -/
theorem dropRef_ends {P : Option Object → World → Prop} (hc : w.heap.find p = .ok c)
    (h : P c.less.lost? { w with heap := w.heap.setCell p c.less }) :
    Ends E (dropRef p) w P :=
  .bind (.cellAt hc (.bind (.modifyHeap h)))

/-- Freeing what stands at an address. -/
theorem freeAt_ends {P : Unit → World → Prop} (hc : w.heap.cell? p = some c)
    (h : P () { w with heap := w.heap.freeCell p c }) : Ends E (freeAt p) w P := by
  unfold freeAt
  refine .bind (.getHeap ?_)
  rw [hc]
  exact .modifyHeap h

/-- What a changed cell leaves in its place. -/
theorem Heap.cell_setCell (h : Heap) (p : Address) (c : Cell) :
    (h.setCell p c).cell? p = some c := by
  unfold cell? setCell
  rw [Std.HashMap.getElem?_insert]
  simp

/-- The object of a cell comes back with its last reference. -/
theorem lost_eq_some {o : Object} (h : c.less.lost? = some o) : c.count = 1 ∧ c.object = o := by
  unfold Cell.lost? at h
  split at h
  · next hcount =>
    refine ⟨?_, Option.some.inj h⟩
    have hcount : c.count - 1 = 0 := hcount
    omega
  · cases h

/-- What waits can be released where counts are exact for it. -/
def Releases (E : RunError → Prop) (env : Env) (budget : Nat) (work : List Task) : Prop :=
  ∀ (vs : List Value) (R : Multiset Address) {w : World} {live : Finset Address},
    work = vs.map .value → AllComplete env w.heap →
    w.heap.Counts (refsAll vs + R) live → live.card ≤ budget →
    Ends E (releaseWork env budget work) w fun _ w' => ∃ live',
      w'.heap.Counts R live' ∧ w.heap.Released live w'.heap live'

/-- Values that hold no references are passed over. -/
theorem releases_cons {budget : Nat} {rest : List Task} (hv : v.refs = 0)
    (hstep : releaseWork env budget (.value v :: rest) = releaseWork env budget rest)
    (ih : Releases E env budget rest) : Releases E env budget (.value v :: rest) := by
  intro vs R w live hwork hall hx hcard
  obtain ⟨u, us, rfl, hu, rfl⟩ := map_eq_cons_iff.1 hwork.symm
  obtain rfl : u = v := Task.value.inj hu
  rw [refsAll_cons, hv, zero_add] at hx
  rw [hstep]
  exact ih us R rfl hall hx hcard

/-- Releasing what waits. -/
theorem releases (budget : Nat) (work : List Task) : Releases E env budget work := by
  fun_induction releaseWork env budget work with
  | case1 budget =>
    intro vs R w live hwork hall hx hcard
    obtain rfl : vs = [] := map_eq_nil_iff.1 hwork.symm
    rw [releaseWork]
    refine .pure ⟨live, ?_, Heap.Shrinks.refl, rfl, rfl, fun _ => .rfl⟩
    simpa using hx
  | case2 budget t i n rest =>
    intro vs R w live hwork hall hx hcard
    obtain ⟨u, us, -, hu, -⟩ := map_eq_cons_iff.1 hwork.symm
    cases hu
  | case3 budget rest ih => exact releases_cons (by simp) (by rw [releaseWork]) ih
  | case4 budget n rest ih => exact releases_cons (by simp) (by rw [releaseWork]) ih
  | case5 budget x rest ih => exact releases_cons (by simp) (by rw [releaseWork]) ih
  | case6 budget elems rest ih =>
    intro vs R w live hwork hall hx hcard
    obtain ⟨u, us, rfl, hu, rfl⟩ := map_eq_cons_iff.1 hwork.symm
    obtain rfl : u = .tuple elems := Task.value.inj hu
    rw [refsAll_cons, refs_tuple, ← refsAll_append] at hx
    rw [releaseWork]
    rw [List.map_attach_eq_pmap, List.pmap_eq_map] at ih
    exact ih (elems ++ us) R (map_append ..).symm hall hx hcard
  | case7 budget p rest ihrest ihfields =>
    intro vs R w live hwork hall hx hcard
    obtain ⟨u, us, rfl, hu, rfl⟩ := map_eq_cons_iff.1 hwork.symm
    obtain rfl : u = .ref p := Task.value.inj hu
    rw [refsAll_cons, refs_ref, add_assoc] at hx
    have hlive : w.heap.Live p := Heap.Exact.live_of_mem ⟨live, hx⟩ (by simp)
    obtain ⟨c, hc⟩ := hlive.find
    rw [releaseWork]
    refine .bind (dropRef_ends hc ?_)
    cases hlost : c.less.lost? with
    | none =>
      have hless : Heap.Released w.heap live (w.heap.setCell p c.less) live := Heap.released_less hc
      refine (ihrest us R rfl (hall.shrinks hless.shrinks) (hx.less hc) hcard).mono ?_
      exact fun _ w' ⟨live', hx', hr⟩ => ⟨live', hx', hless.trans hr⟩
    | some o =>
      -- the last reference: the object goes, and what it holds waits
      obtain ⟨hlast, rfl⟩ := lost_eq_some hlost
      obtain ⟨fs, htasks, hfs⟩ := hall p c.object (Heap.obj_of_find hc)
      have hp : p ∈ live := (hx.mem p).2 hlive
      cases budget with
      | zero => exact absurd (card_pos.2 ⟨p, hp⟩) (not_lt.2 hcard)
      | succ budget =>
        refine .bind (freeAt_ends (Heap.cell_setCell ..) ?_)
        have hfreed := Heap.released_freed hc hp
        have hx := hx.freed hc hlast
        rw [← hfs, ← add_assoc, ← refsAll_append] at hx
        have hcard' : (live.erase p).card ≤ budget := by
          rw [Finset.card_erase_of_mem hp]
          omega
        have hrel : Releases E env budget (tasksOf env c.object ++ us.map .value) :=
          ihfields c.object
        refine (hrel (fs ++ us) R ?_ ?_ hx hcard').mono ?_
        · rw [htasks, map_append]
        · exact hall.shrinks hfreed.shrinks
        · rintro _ w' ⟨live', hx', hr⟩
          exact ⟨live', hx', hfreed.trans hr⟩

section

variable (hall : AllComplete env w.heap)
include hall

/-- Releasing values takes the references that they hold away. -/
theorem releaseAll_ends {vs : List Value}
    (hx : w.heap.Counts (refsAll vs + R) live) : Ends E (releaseAll env vs) w fun _ w' => ∃ live',
      w'.heap.Counts R live' ∧ w.heap.Released live w'.heap live' :=
  .bind (.getHeap (releases _ _ vs R rfl hall hx hx.card_le))

/-- Releasing a value takes the references that it holds away. -/
theorem release_ends (hx : w.heap.Counts (v.refs + R) live) :
    Ends E (release env v) w fun _ w' => ∃ live',
      w'.heap.Counts R live' ∧ w.heap.Released live w'.heap live' := by
  refine releaseAll_ends hall ?_
  rw [refsAll_cons, refsAll_nil, add_zero]
  exact hx

theorem release_exact (hx : w.heap.Exact (v.refs + R)) :
    Ends E (release env v) w fun _ w' => w'.heap.Exact R ∧ w.heap.Shrinks w'.heap := by
  obtain ⟨live, hx⟩ := hx
  refine (release_ends hall hx).mono ?_
  rintro _ w' ⟨live', hx', hr⟩
  exact ⟨⟨live', hx'⟩, hr.shrinks⟩

end

end RefCount.Machine
