/-
Exact counts. A value holds references, inside tuples as well; an object holds
those of its fields. The counts of a heap are exact for some references from
outside if the count of every object is the number of references to it from
outside and from the fields of objects that are not freed.

# What follows

Where counts are exact no reference dangles: what is referred to from outside,
and what is reached from there through fields, has not been freed. So whatever
happens to a heap, if its counts are exact for the same references before and
after, and no object has been changed, everything that is reached from those
references is as it was (`keeps_of_agree`).

# The operations

Taking references raises counts and leaves objects alone, and a new object
takes over the references in its fields. Each is told by what it does to exact
counts. Releasing is the matter of `Heap.Release`.
-/
import Mathlib
import RefCount.Proofs.Machine.Safe

namespace RefCount.Machine

open Value

-- ======== references

mutual

/-- The references that a value holds. -/
def Value.refs : Value → Multiset Address
  | .ref p => {p}
  | .tuple elems => refsAll elems
  | _ => 0

/-- The references that values hold. -/
def Value.refsAll : List Value → Multiset Address
  | [] => 0
  | v :: vs => v.refs + refsAll vs

end

namespace Value

@[simp] theorem refs_unit : refs .unit = 0 := by rw [refs.eq_def]
@[simp] theorem refs_int (n : Int64) : refs (.int n) = 0 := by rw [refs.eq_def]
@[simp] theorem refs_float (x : Float) : refs (.float x) = 0 := by rw [refs.eq_def]
@[simp] theorem refs_ref (p : Address) : refs (.ref p) = {p} := by rw [refs.eq_def]
@[simp] theorem refs_tuple (vs : List Value) : refs (.tuple vs) = refsAll vs := by
  rw [refs.eq_def]
@[simp] theorem refsAll_nil : refsAll [] = 0 := by rw [refsAll.eq_def]
@[simp] theorem refsAll_cons (v : Value) (vs : List Value) :
    refsAll (v :: vs) = v.refs + refsAll vs := by
  rw [refsAll.eq_def]

@[simp] theorem refsAll_append (vs us : List Value) :
    refsAll (vs ++ us) = refsAll vs + refsAll us := by
  induction vs with
  | nil => simp
  | cons v vs ih => simp [ih, add_assoc]

/-- A reference that values hold is held by one of them. -/
theorem mem_refsAll {p : Address} {vs : List Value} : p ∈ refsAll vs ↔ ∃ v ∈ vs, p ∈ v.refs := by
  induction vs with
  | nil => simp
  | cons v vs ih => simp [ih]

end Value

-- ======== objects

namespace Heap

open Multiset Std.HashMap

variable {h h' : Heap} {p q : Address}
variable {c : Cell} {h'' : Heap} {m : Multiset Address}

/-- The object at an address, unless it has been freed. -/
def obj? (h : Heap) (p : Address) : Option Object :=
  match h.find p with
  | .ok c => some c.object
  | .error _ => none

/-- There is an object at an address that has not been freed. -/
def Live (h : Heap) (p : Address) : Prop := (h.obj? p).isSome

/-- The count at an address; nothing counts as zero. -/
def countAt (h : Heap) (p : Address) : Int :=
  match h.find p with
  | .ok c => c.count
  | .error _ => 0

/-- The references in the fields of the object at an address. -/
def held (h : Heap) (p : Address) : Multiset Address :=
  refsAll (((h.obj? p).map (·.fields)).getD [])

theorem obj_of_find (hc : h.find p = .ok c) : h.obj? p = some c.object := by
  unfold obj?
  rw [hc]

theorem countAt_of_find (hc : h.find p = .ok c) : h.countAt p = c.count := by
  unfold countAt
  rw [hc]

/-- The cell of an object that is there. -/
theorem Live.find (hp : h.Live p) : ∃ c, h.find p = .ok c := by
  unfold Live obj? at hp
  cases hc : h.find p with
  | error e => rw [hc] at hp; cases hp
  | ok c => exact ⟨c, rfl⟩

theorem live_of_find (hc : h.find p = .ok c) : h.Live p := by
  unfold Live
  rw [obj_of_find hc]
  rfl

/-- What has been freed holds nothing. -/
theorem held_of_not_live (hp : ¬h.Live p) : h.held p = 0 := by
  unfold Live at hp
  unfold held
  rw [Option.not_isSome_iff_eq_none.1 hp]
  simp

theorem held_of_find (hc : h.find p = .ok c) : h.held p = refsAll c.object.fields := by
  unfold held
  rw [obj_of_find hc]
  rfl

/-- Objects that are the same hold the same. -/
theorem held_congr (ho : h'.obj? p = h.obj? p) : h'.held p = h.held p := by
  unfold held
  rw [ho]

-- ======== cells

/-- What a changed cell leaves at an address. -/
theorem find_setCell (c : Cell) : (h.setCell p c).find q =
      if q = p then
        if c.object.freed then .error (.useAfterFree p) else .ok c
      else h.find q := by
  unfold find cell? setCell
  rw [getElem?_insert]
  by_cases hq : q = p
  · simp [hq]
  · simp [hq, Ne.symm hq]

theorem not_freed_of_find (hc : h.find p = .ok c) : c.object.freed = false := by
  unfold find at hc
  split at hc
  · cases hc
  · next c' _ =>
    split at hc
    · cases hc
    · next hf =>
      cases hc
      simpa using hf

/-- What a freed cell leaves at an address. -/
theorem find_freeCell (c : Cell) : (h.freeCell p c).find q =
      if q = p then .error (.useAfterFree p) else h.find q := by
  unfold find cell? freeCell
  rw [getElem?_insert]
  by_cases hq : q = p
  · simp [hq]
  · simp [hq, Ne.symm hq]

/-- What a new object leaves at an address. -/
theorem find_allocate (size align : Int64) (o : Object) : (h.allocate size align o).2.find q =
      if q = (h.allocate size align o).1 then
        .ok ⟨1, { o with size := size, freed := false }⟩
      else h.find q := by
  unfold find cell? allocate
  rw [getElem?_insert]
  by_cases hq : q = h.nextBase align + wordSize
  · simp [hq]
  · simp [hq, Ne.symm hq]

-- ======== exactness

/-- The counts of a heap are exact for references from outside: `live` lists
the objects that are not freed. -/
structure Counts (h : Heap) (R : Multiset Address) (live : Finset Address) :
    Prop where
  mem : ∀ p, p ∈ live ↔ h.Live p
  count : ∀ p, h.countAt p = ((R + ∑ q ∈ live, h.held q).count p : Nat)

/-- The count of every object is the number of references to it, from outside
and from the fields of objects that are not freed. -/
def Exact (h : Heap) (R : Multiset Address) : Prop := ∃ live, h.Counts R live

variable {R R' A B : Multiset Address} {live : Finset Address}

/-- What is referred to is there. -/
theorem Counts.live_of_count (hx : h.Counts R live)
    (hp : 0 < (R + ∑ q ∈ live, h.held q).count p) : h.Live p := by
  have hc := hx.count p
  unfold countAt at hc
  split at hc
  · next c hf => exact live_of_find hf
  · omega

/-- What is referred to from outside is there. -/
theorem Exact.live_of_mem (hx : h.Exact R) (hp : p ∈ R) : h.Live p := by
  obtain ⟨live, hx⟩ := hx
  refine hx.live_of_count ?_
  rw [count_pos]
  exact mem_add.2 (.inl hp)

/-- What a field refers to is there. -/
theorem Exact.live_of_held (hx : h.Exact R) (hp : p ∈ h.held q) : h.Live p := by
  obtain ⟨live, hx⟩ := hx
  have hq : q ∈ live := by
    rw [hx.mem]
    by_contra hq
    rw [held_of_not_live hq] at hp
    exact notMem_zero p hp
  refine hx.live_of_count ?_
  rw [count_pos]
  exact mem_add.2 (.inr (mem_sum.2 ⟨q, hq, hp⟩))

-- ======== reach

/-- What is reached from references through the fields of objects. -/
inductive Reach (h : Heap) (A : Multiset Address) : Address → Prop
  | root {p : Address} (hp : p ∈ A) : Reach h A p
  | field {p q : Address} (hq : Reach h A q) (hp : p ∈ h.held q) : Reach h A p

/-- More references reach more. -/
theorem Reach.of_reach (hp : h.Reach A p) (hA : ∀ a ∈ A, h.Reach B a) : h.Reach B p := by
  induction hp with
  | root hp => exact hA _ hp
  | field _ hp ih => exact .field ih hp

theorem Reach.mono (hp : h.Reach A p) (hA : A ≤ B) : h.Reach B p :=
  hp.of_reach fun _ ha => .root (mem_of_le hA ha)

theorem Exact.live_of_reach (hx : h.Exact R) (hA : A ≤ R) (hp : h.Reach A p) : h.Live p := by
  induction hp with
  | root hp => exact hx.live_of_mem (mem_of_le hA hp)
  | field _ hp _ => exact hx.live_of_held hp

/-- Everything that is reached from references stays as it is. -/
def Keeps (A : Multiset Address) (h h' : Heap) : Prop :=
  ∀ p, h.Reach A p → h'.obj? p = h.obj? p

theorem Keeps.refl : Keeps A h h := fun _ _ => rfl

/-- What is reached stays within reach. -/
theorem Reach.keeps (hp : h.Reach A p) (hk : Keeps A h h') : h'.Reach A p := by
  induction hp with
  | root hp => exact .root hp
  | field hq hp ih =>
    rw [← held_congr (hk _ hq)] at hp
    exact .field ih hp

theorem Keeps.trans (hk : Keeps A h h') (hk' : Keeps A h' h'') : Keeps A h h'' := by
  intro p hp
  rw [hk' p (hp.keeps hk), hk p hp]

theorem Keeps.mono (hk : Keeps B h h') (hA : A ≤ B) : Keeps A h h' :=
  fun p hp => hk p (hp.mono hA)

/-- Objects that are there in both heaps are the same. -/
def Agree (h h' : Heap) : Prop :=
  ∀ p, h.Live p → h'.Live p → h'.obj? p = h.obj? p

/-- References for which counts are exact before and after keep what they
reach. -/
theorem keeps_of_agree (hx : h.Exact R) (hx' : h'.Exact R') (hA : A ≤ R)
    (hA' : A ≤ R') (hag : Agree h h') : Keeps A h h' := by
  have hlive : ∀ p, h.Reach A p → h'.Live p := by
    intro p hp
    induction hp with
    | root hp => exact hx'.live_of_mem (mem_of_le hA' hp)
    | field hq hp ih =>
      rw [← held_congr (hag _ (hx.live_of_reach hA hq) ih)] at hp
      exact hx'.live_of_held hp
  intro p hp
  exact hag p (hx.live_of_reach hA hp) (hlive p hp)

-- ======== taking references

/-- Counts are raised by the references in `m`, and nothing else changes. -/
structure Raised (h h' : Heap) (m : Multiset Address) : Prop where
  find : ∀ p, h'.find p =
    (h.find p).map fun c => { c with count := c.count + (m.count p : Nat) }
  next : h'.next = h.next
  vacant : ∀ p, h'.cell? p = none ↔ h.cell? p = none

theorem Raised.refl : Raised h h 0 where
  find p := by cases hp : h.find p <;> simp [Except.map]
  next := rfl
  vacant _ := .rfl

theorem Raised.trans {n : Multiset Address} (hr : Raised h h' m) (hr' : Raised h' h'' n) :
    Raised h h'' (m + n) where
  find p := by
    rw [hr'.find, hr.find]
    cases h.find p with
    | error e => rfl
    | ok c => simp [Except.map, add_assoc]
  next := hr'.next.trans hr.next
  vacant p := (hr'.vacant p).trans (hr.vacant p)

/-- Objects are left alone. -/
theorem Raised.obj (hr : Raised h h' m) (p : Address) : h'.obj? p = h.obj? p := by
  unfold obj?
  rw [hr.find]
  cases h.find p <;> rfl

theorem Raised.live_iff (hr : Raised h h' m) : h'.Live p ↔ h.Live p := by
  unfold Live
  rw [hr.obj]

/-- Raised counts are exact for the references taken as well. -/
theorem Raised.exact (hr : Raised h h' m) (hm : ∀ p ∈ m, h.Live p) (hx : h.Exact R) :
    h'.Exact (m + R) := by
  obtain ⟨live, hx⟩ := hx
  refine ⟨live, fun p => (hx.mem p).trans hr.live_iff.symm, fun p => ?_⟩
  have hheld : ∑ q ∈ live, h'.held q = ∑ q ∈ live, h.held q :=
    Finset.sum_congr rfl fun q _ => held_congr (hr.obj q)
  have hp := hx.count p
  rw [hheld, add_assoc, Multiset.count_add, Nat.cast_add, ← hp]
  cases hc : h.find p with
  | error e =>
    have hnot : ¬h.Live p := by
      intro hl
      obtain ⟨c, hc'⟩ := hl.find
      rw [hc] at hc'
      cases hc'
    have hzero : m.count p = 0 := count_eq_zero.2 fun hm' => hnot (hm p hm')
    have hc' : h'.find p = .error e := by rw [hr.find, hc]; rfl
    unfold countAt
    rw [hc, hc', hzero]
    rfl
  | ok c =>
    have hc' : h'.find p = .ok { c with count := c.count + (m.count p : Nat) } := by
      rw [hr.find, hc]
      rfl
    rw [countAt_of_find hc', countAt_of_find hc]
    exact add_comm _ _

/-- A cell that is changed was there before, and so were all others. -/
theorem insert_eq_none_iff (hc : h.cell? p ≠ none) (q : Address) :
    (h.cells.insert p c)[q]? = none ↔ h.cell? q = none := by
  unfold cell? at *
  rw [getElem?_insert]
  by_cases hq : p = q
  · subst hq
    simp [hc]
  · simp [hq]

theorem cell_ne_none_of_find (hc : h.find p = .ok c) : h.cell? p ≠ none := by
  intro hno
  unfold find at hc
  rw [hno] at hc
  cases hc

/-- One more reference raises a count by one. -/
theorem raised_setCell (hc : h.find p = .ok c) : Raised h (h.setCell p c.more) {p} where
  find q := by
    rw [find_setCell]
    by_cases hq : q = p
    · subst hq
      rw [if_pos rfl, if_neg (by simp [Cell.more, not_freed_of_find hc]), hc]
      simp [Except.map, Cell.more]
    · rw [if_neg hq]
      have hzero : Multiset.count q {p} = 0 := by simp [hq]
      rw [hzero]
      cases h.find q <;> simp [Except.map]
  next := rfl
  vacant := insert_eq_none_iff (cell_ne_none_of_find hc)

end Heap

mutual

/-- Taking references to a value. -/
theorem retain_ends {E : RunError → Prop} : ∀ (v : Value) {w : World},
    (∀ p ∈ v.refs, w.heap.Live p) → Ends E (retain v) w fun _ w' => w.heap.Raised w'.heap v.refs
  | .ref p, w, hv => by
    obtain ⟨c, hc⟩ := (hv p (by simp)).find
    rw [retain, refs_ref]
    exact .bind (.cellAt hc (.modifyHeap (Heap.raised_setCell hc)))
  | .tuple elems, w, hv => by
    rw [retain, refs_tuple]
    exact retainAll_ends elems (by simpa using hv)
  | .unit, _, _ => by
    rw [refs_unit]
    exact Heap.Raised.refl
  | .int _, _, _ => by
    rw [refs_int]
    exact Heap.Raised.refl
  | .float _, _, _ => by
    rw [refs_float]
    exact Heap.Raised.refl

/-- Taking references to values. -/
theorem retainAll_ends {E : RunError → Prop} : ∀ (vs : List Value) {w : World},
    (∀ p ∈ refsAll vs, w.heap.Live p) →
    Ends E (retainAll vs) w fun _ w' => w.heap.Raised w'.heap (refsAll vs)
  | [], _, _ => by
    rw [refsAll_nil]
    exact Heap.Raised.refl
  | v :: vs, w, hv => by
    rw [retainAll, refsAll_cons]
    rw [refsAll_cons] at hv
    refine .bind ((retain_ends v fun p hp => hv p ?_).mono fun _ w' hr => ?_)
    · exact Multiset.mem_add.2 (.inl hp)
    · refine (retainAll_ends vs fun p hp => ?_).mono fun _ w'' hr' => hr.trans hr'
      exact hr.live_iff.2 (hv p (Multiset.mem_add.2 (.inr hp)))

end

-- ======== new objects

namespace Heap

variable {h : Heap} {R : Multiset Address}

/-- The next object gets an address that has not been given out. -/
def HasRoom (h : Heap) : Prop := h.cell? (h.nextBase wordSize + wordSize) = none

theorem Raised.hasRoom {h' : Heap} {m : Multiset Address} (hr : Raised h h' m)
    (hroom : h.HasRoom) : h'.HasRoom := by
  unfold HasRoom nextBase at *
  rw [hr.vacant, hr.next]
  exact hroom

/-- There is nothing at an address that has not been given out. -/
theorem not_live_of_vacant {p : Address} (hp : h.cell? p = none) : ¬h.Live p := by
  intro hl
  obtain ⟨c, hc⟩ := hl.find
  exact cell_ne_none_of_find hc hp

variable {size align : Int64} {o : Object}

/-- The objects there are when one is new. -/
theorem obj_allocate (q : Address) : (h.allocate size align o).2.obj? q =
      if q = (h.allocate size align o).1 then
        some { o with size := size, freed := false }
      else h.obj? q := by
  unfold obj?
  rw [find_allocate]
  by_cases hq : q = (h.allocate size align o).1
  · rw [if_pos hq, if_pos hq]
  · rw [if_neg hq, if_neg hq]

/-- A new object changes no other. -/
theorem keeps_allocate (hx : h.Exact R) (hroom : h.cell? (h.allocate size align o).1 = none) :
    Keeps R h (h.allocate size align o).2 := by
  intro q hq
  rw [obj_allocate, if_neg]
  rintro rfl
  exact not_live_of_vacant hroom (hx.live_of_reach le_rfl hq)

/-- A new object takes over the references in its fields. -/
theorem Exact.allocate (hx : h.Exact (refsAll o.fields + R))
    (hroom : h.cell? (h.allocate size align o).1 = none) :
    (h.allocate size align o).2.Exact ({(h.allocate size align o).1} + R) := by
  obtain ⟨live, hx⟩ := hx
  set p := (h.allocate size align o).1 with hp
  set h' := (h.allocate size align o).2 with hh'
  have hobj : ∀ q, h'.obj? q =
      if q = p then some { o with size := size, freed := false } else h.obj? q :=
    obj_allocate
  have hnot : ¬h.Live p := not_live_of_vacant hroom
  have hpl : p ∉ live := fun hl => hnot ((hx.mem p).1 hl)
  have hsum : ∑ q ∈ insert p live, h'.held q =
      refsAll o.fields + ∑ q ∈ live, h.held q := by
    rw [Finset.sum_insert hpl]
    congr 1
    · unfold held
      rw [hobj, if_pos rfl]
      rfl
    · refine Finset.sum_congr rfl fun q hq => held_congr ?_
      rw [hobj, if_neg (by rintro rfl; exact hpl hq)]
  refine ⟨insert p live, fun q => ?_, fun q => ?_⟩
  · unfold Live
    rw [hobj, Finset.mem_insert]
    by_cases hq : q = p
    · simp [hq]
    · rw [if_neg hq, hx.mem]
      simp [hq, Live]
  · have hold := hx.count q
    have hcomm : {p} + R + (refsAll o.fields + ∑ q ∈ live, h.held q) =
        {p} + (refsAll o.fields + R + ∑ q ∈ live, h.held q) := by
      abel
    rw [hsum, hcomm, Multiset.count_add, Nat.cast_add, ← hold]
    unfold countAt
    rw [hh', find_allocate, ← hp]
    by_cases hq : q = p
    · rw [hq]
      cases hf : h.find p with
      | ok c => exact absurd (live_of_find hf) hnot
      | error e => simp
    · have hzero : Multiset.count q {p} = 0 := by simp [hq]
      rw [if_neg hq, hzero]
      simp

end Heap

end RefCount.Machine
