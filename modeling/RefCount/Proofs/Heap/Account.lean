/-
Taking and releasing references keep the accounts of a heap. The accounts are
in order for values held from outside if every reference in them, or in a field
of an object that is not freed, leads to an object that is not freed, and the
count of every such object is the number of references to it.

Nothing is asked of the shape of the heap: objects may refer to each other in
cycles. A release takes away one reference at a time, and what it frees is
never looked at again, so that it comes to an end on every heap whose accounts
are in order.
-/
import Mathlib
import RefCount.Proofs.Heap.Release

namespace RefCount.Machine

open Finset Std.HashMap

namespace Heap

variable {h h' : Heap} {p : Address} {R : Multiset Value} {A : Multiset Address}
  {live live' : Finset Address}

-- ======== in order

/-- The addresses of the objects that are not freed. -/
def liveSet (h : Heap) : Finset Address :=
  h.cells.keys.toFinset.filter fun p => (h.obj? p).isSome

/-- The references in values, and in the fields of objects that are not
freed. -/
def references (h : Heap) (R : Multiset Value) : Multiset Address :=
  R.bind Value.refs + ∑ q ∈ h.liveSet, h.held q

/-- References lead to objects that are not freed, and the count of each of
these is the number of references to it. -/
structure ExactFor (h : Heap) (R : Multiset Value) : Prop where
  live : ∀ p ∈ h.references R, h.Live p
  count : ∀ p c, h.find p = .ok c → c.count = (h.references R).count p

theorem mem_liveSet : p ∈ h.liveSet ↔ h.Live p := by
  rw [liveSet, Finset.mem_filter]
  exact ⟨fun hp => hp.2, fun hp => ⟨hp.mem_keys, hp⟩⟩

theorem Counts.live_eq (hx : h.Counts A live) : live = h.liveSet := by
  ext p
  rw [hx.mem, mem_liveSet]

/-- Accounts are in order exactly if counts are exact for the references from
outside. -/
theorem exactFor_iff : h.ExactFor R ↔ h.Counts (R.bind Value.refs) h.liveSet := by
  constructor
  · intro hx
    refine ⟨fun p => mem_liveSet, fun p => ?_⟩
    cases hc : h.find p with
    | ok c =>
      rw [countAt_of_find hc]
      exact hx.count p c hc
    | error e =>
      -- nothing refers to what is not there
      have hno : (h.references R).count p = 0 := by
        refine Multiset.count_eq_zero.2 fun hp => ?_
        obtain ⟨c, hc'⟩ := (hx.live p hp).find
        rw [hc] at hc'
        cases hc'
      rw [references] at hno
      unfold countAt
      rw [hc, hno]
      rfl
  · intro hx
    refine ⟨fun p hp => hx.live_of_count (Multiset.count_pos.2 hp), fun p c hc => ?_⟩
    rw [← countAt_of_find hc]
    exact hx.count p

theorem Counts.exactFor (hx : h.Counts (R.bind Value.refs) live) : h.ExactFor R := by
  rw [exactFor_iff, ← hx.live_eq]
  exact hx

/-- A count is a whole number, and no count is above the number of references.
So with fewer than `2 ^ 63` references, words of 64 bits hold the counts. -/
theorem ExactFor.toInt_count {c : Cell} (hx : h.ExactFor R)
    (hfew : (h.references R).card < 2 ^ 63) (hc : h.find p = .ok c) :
    (Int64.ofInt c.count).toInt = c.count := by
  have hle := Multiset.count_le_card p (h.references R)
  rw [hx.count p c hc]
  exact Int64.toInt_ofInt_of_le (by omega) (by omega)

-- ======== freed

/-- What is there after a release was there before. -/
theorem Released.subset (hr : Released h h.liveSet h' h'.liveSet) : h'.liveSet ⊆ h.liveSet := by
  intro p hp
  rw [mem_liveSet] at hp ⊢
  have hobj := hr.shrinks p hp
  unfold Live at hp ⊢
  rwa [← hobj]

/-- As many objects are freed as are no longer there. -/
theorem Released.frees_eq (hr : Released h h.liveSet h' h'.liveSet) :
    h'.frees = h.frees + (h.liveSet \ h'.liveSet).card := by
  have hcard := card_sdiff_add_card_eq_card hr.subset
  have hfrees := hr.frees
  omega

end Heap

-- ======== operations

variable {env : Env} {w : World} {v : Value} {R : Multiset Value}

/-- Taking references to what is there adds them to the accounts. -/
theorem retain_exactFor (hx : w.heap.ExactFor R) (hv : ∀ p ∈ v.refs, w.heap.Live p) :
    ∃ w', (retain v).run.run w = (.ok (), w') ∧ w'.heap.ExactFor (v ::ₘ R) := by
  obtain ⟨⟨⟩, w', hrun, hraised⟩ := Ends.exists_ok (retain_ends v hv)
  refine ⟨w', hrun, ?_⟩
  obtain ⟨live, hx'⟩ := hraised.exact hv ⟨_, Heap.exactFor_iff.1 hx⟩
  rw [← Multiset.cons_bind] at hx'
  exact hx'.exactFor

/-- Releasing what is held takes it out of the accounts, and frees what nothing
is left to refer to. -/
theorem release_exactFor (henv : env.drops = none) (hx : w.heap.ExactFor (v ::ₘ R)) :
    ∃ w', (release env v).run.run w = (.ok (), w') ∧ w'.heap.ExactFor R ∧
      w.heap.Released w.heap.liveSet w'.heap w'.heap.liveSet := by
  have hcounts := Heap.exactFor_iff.1 hx
  rw [Multiset.cons_bind] at hcounts
  have hall : AllComplete env w.heap := fun _ o _ => complete_of_drops henv o
  obtain ⟨⟨⟩, w', hrun, live', hcounts', hreleased⟩ := Ends.exists_ok (release_ends hall hcounts)
  refine ⟨w', hrun, hcounts'.exactFor, ?_⟩
  rw [← hcounts'.live_eq]
  exact hreleased

/-- Where accounts are in order for some values, taking references to a value
whose references are there succeeds and adds the value; releasing one of the
values succeeds and takes it away, the number of frees grows by the number of
objects that are no longer there, and every other object stays as it is. -/
theorem retain_release_exactFor (henv : env.drops = none) (hx : w.heap.ExactFor R) (v : Value) :
    ((∀ p ∈ v.refs, w.heap.Live p) →
      ∃ w', (retain v).run.run w = (.ok (), w') ∧ w'.heap.ExactFor (v ::ₘ R)) ∧
    ∀ R', R = v ::ₘ R' →
      ∃ w', (release env v).run.run w = (.ok (), w') ∧ w'.heap.ExactFor R' ∧
        w'.heap.frees = w.heap.frees + (w.heap.liveSet \ w'.heap.liveSet).card ∧
        ∀ p ∈ w'.heap.liveSet, p ∈ w.heap.liveSet ∧ w'.heap.obj? p = w.heap.obj? p := by
  refine ⟨retain_exactFor hx, ?_⟩
  rintro R' rfl
  obtain ⟨w', hrun, hx', hreleased⟩ := release_exactFor henv hx
  refine ⟨w', hrun, hx', hreleased.frees_eq, fun p hp => ⟨hreleased.subset hp, ?_⟩⟩
  exact hreleased.shrinks p (Heap.mem_liveSet.1 hp)

-- ======== a cycle

namespace Heap

/-- An object with a count and fields. -/
def node (count : Int) (fields : List Value) : Cell :=
  ⟨count, ⟨.str, 0, fields, [], "", 0, false⟩⟩

/-- An object that refers to itself, and another one that refers to it. -/
def looped : Heap where
  cells := .ofList
    [(0x1008, node 2 [.ref 0x1008]), (0x1020, node 1 [.int 5, .tuple [.ref 0x1008]])]
  next := 0x1038
  allocs := 2
  frees := 0
  bytes := 48

theorem find_looped (p : Address) : looped.find p =
    if p = 0x1020 then .ok (node 1 [.int 5, .tuple [.ref 0x1008]])
    else if p = 0x1008 then .ok (node 2 [.ref 0x1008])
    else .error (.badPointer p) := by
  unfold find cell? looped
  simp only [ofList_cons, insertMany_cons, insertMany_nil,
    getElem?_insert, beq_iff_eq]
  by_cases h₁ : p = 0x1020
  · simp [h₁, node]
  · by_cases h₂ : p = 0x1008
    · simp [h₂, node]
    · simp [h₁, h₂, Ne.symm h₁, Ne.symm h₂]

theorem looped_exactFor : looped.ExactFor {.ref 0x1020} := by
  have hpair : looped.find 0x1020 = .ok (node 1 [.int 5, .tuple [.ref 0x1008]]) := by
    rw [find_looped, if_pos rfl]
  have hloop : looped.find 0x1008 = .ok (node 2 [.ref 0x1008]) := by
    rw [find_looped, if_neg (by decide), if_pos rfl]
  refine @Counts.exactFor _ _ {0x1008, 0x1020} ⟨fun p => ⟨fun hp => ?_, fun hp => ?_⟩,
    fun p => ?_⟩
  · rw [Finset.mem_insert, Finset.mem_singleton] at hp
    rcases hp with rfl | rfl
    · exact live_of_find hloop
    · exact live_of_find hpair
  · obtain ⟨c, hc⟩ := hp.find
    rw [Finset.mem_insert, Finset.mem_singleton]
    by_contra hno
    rw [not_or] at hno
    rw [find_looped, if_neg hno.2, if_neg hno.1] at hc
    cases hc
  · have hheld : ∑ q ∈ ({0x1008, 0x1020} : Finset Address), looped.held q =
        {0x1008} + {0x1008} := by
      rw [sum_pair (by decide), held_of_find hloop, held_of_find hpair]
      simp [node]
    rw [hheld]
    unfold countAt
    rw [find_looped]
    by_cases h₁ : p = 0x1020
    · simp [h₁, node]
    · by_cases h₂ : p = 0x1008
      · simp [h₂, node]
      · simp [h₁, h₂]

end Heap

/-- Releasing the object that refers to a cycle frees it and nothing else. -/
theorem release_looped_exactFor :
    let w : World := { World.initial with heap := Heap.looped }
    w.heap.ExactFor {.ref 0x1020} ∧
    ∃ w', (release ⟨.initial, [], [], none, true, 10⟩ (.ref 0x1020)).run.run w = (.ok (), w') ∧
      w'.heap.ExactFor 0 ∧
      w'.heap.frees = w.heap.frees + (w.heap.liveSet \ w'.heap.liveSet).card ∧
      ∀ p ∈ w'.heap.liveSet, p ∈ w.heap.liveSet ∧ w'.heap.obj? p = w.heap.obj? p :=
  ⟨Heap.looped_exactFor,
    (retain_release_exactFor rfl Heap.looped_exactFor (.ref 0x1020)).2 0 rfl⟩

end RefCount.Machine
