/-
Heaps stay sane whatever is done to them. Everything that is done to a heap
comes down to a few steps (`Step`): an object is allocated, counted up, counted
down, freed with its last reference, or has its contents changed. None of them
asks whether the code that makes them is right.

# The argument

Objects are laid out one behind the other: all of them end at or before the
place where the next one is to stand (`Laid`), so that they do not overlap and
no address is given out twice. This needs the addresses not to wrap around, so
steps say how much memory they ask for, and nothing is claimed of heaps that
have asked for as much as there are addresses. Counts are changed together with
the mark of being freed; a freed object is never found, so nothing counts it
again.
-/
import Mathlib
import RefCount.Proofs.Heap.Account

namespace RefCount.Machine

open Finset Std.HashMap

-- ======== cells

/-- What is left of a cell when its object is freed. -/
def Cell.dead (c : Cell) : Cell := ⟨0, { c.object with freed := true, fields := [] }⟩

/-- A cell in order: it has no references exactly if its object is freed. -/
def Cell.Sane (c : Cell) : Prop :=
  (c.count = 0 ↔ c.object.freed = true) ∧ (c.object.freed = false → 1 ≤ c.count)

theorem Cell.sane_of_pos {c : Cell} (hfreed : c.object.freed = false) (hpos : 1 ≤ c.count) :
    c.Sane := by
  refine ⟨?_, fun _ => hpos⟩
  rw [hfreed]
  simp only [Bool.false_eq_true, iff_false]
  omega

namespace Heap

variable {h h' h'' : Heap} {p q : Address} {c c' d : Cell} {n m : Nat}

-- ======== steps

/-- One thing that is done to a heap, with the memory that it asks for. -/
inductive Step : Heap → Nat → Heap → Prop
  /-- With its count, and up to a word for alignment. -/
  | allocate {h : Heap} {align : Int64} (halign : max align wordSize = wordSize) (size : Nat)
      (o : Object) : Step h (size + 16) (h.allocate (Int64.ofNat size) align o).2
  | more {h : Heap} {p : Address} {c : Cell} (hc : h.find p = .ok c) :
      Step h 0 (h.setCell p c.more)
  | less {h : Heap} {p : Address} {c : Cell} (hc : h.find p = .ok c) (hn : c.count ≠ 1) :
      Step h 0 (h.setCell p c.less)
  | free {h : Heap} {p : Address} {c : Cell} (hc : h.find p = .ok c) (hn : c.count = 1) :
      Step h 0 ((h.setCell p c.less).freeCell p c.less)
  /-- Freed or not. -/
  | rewrite {h : Heap} {p : Address} {c : Cell} (hc : h.cell? p = some c) {o : Object}
      (hsize : o.size = c.object.size) (hfreed : o.freed = c.object.freed) :
      Step h 0 (h.setCell p { c with object := o })

/-- Steps one after the other, with all the memory that they ask for. -/
inductive Evolves : Heap → Nat → Heap → Prop
  | refl {h : Heap} : Evolves h 0 h
  | step {h h' h'' : Heap} {n m : Nat} (hs : Step h n h') (he : Evolves h' m h'') :
      Evolves h (n + m) h''

/-- What two runs ask for adds up. -/
theorem Evolves.trans (he : Evolves h n h') (he' : Evolves h' m h'') : Evolves h (n + m) h'' := by
  induction he with
  | refl => rwa [zero_add]
  | step hs _ ih =>
    rw [add_assoc]
    exact .step hs (ih he')

/-- The least memory that steps from one heap to another ask for. -/
noncomputable def memory (h h' : Heap) : Nat := sInf {n | h.Evolves n h'}

/-- The least that explains a heap explains it. -/
theorem Evolves.memory (he : h.Evolves n h') : h.Evolves (h.memory h') h' :=
  Nat.sInf_mem (s := {n | h.Evolves n h'}) ⟨n, he⟩

theorem Evolves.memory_le (he : h.Evolves n h') : h.memory h' ≤ n := Nat.sInf_le he

theorem Step.evolves (hs : Step h n h') : Evolves h n h' := .step hs .refl

-- ======== sanity

/-- Where an object and its count stand. -/
def range (p : Address) (c : Cell) : Set Int :=
  Set.Ico (p.toInt - 8) (p.toInt + c.object.size.toInt)

/-- All objects that were ever allocated are there, they do not overlap, those
without references are the freed ones, and the others are as many as the
numbers of allocations and frees say. -/
structure Sane (h : Heap) : Prop where
  all : h.cells.size = h.allocs
  freed : ∀ p c, h.cell? p = some c → (c.count = 0 ↔ c.object.freed = true)
  counted : ∀ p c, h.cell? p = some c → c.object.freed = false → 1 ≤ c.count
  live : h.live = h.liveSet.card
  apart : ∀ p q c d, h.cell? p = some c → h.cell? q = some d → p ≠ q →
    Disjoint (range p c) (range q d)

/-- An object that was there still is, in its place, and freed if it was. -/
def Stays (h h' : Heap) : Prop :=
  ∀ p c, h.cell? p = some c → ∃ c', h'.cell? p = some c' ∧
    c'.object.size = c.object.size ∧ (c.object.freed = true → c'.object.freed = true)

theorem Stays.refl : Stays h h := fun _ c hc => ⟨c, hc, rfl, id⟩

/-- Objects stay where they are. -/
theorem Stays.trans (hs : Stays h h') (hs' : Stays h' h'') : Stays h h'' := by
  intro p c hc
  obtain ⟨c', hc', hsize, hfreed⟩ := hs p c hc
  obtain ⟨c'', hc'', hsize', hfreed'⟩ := hs' p c' hc'
  exact ⟨c'', hc'', hsize'.trans hsize, hfreed' ∘ hfreed⟩

-- ======== look-up

theorem find_eq_ok_iff : h.find p = .ok c ↔ h.cell? p = some c ∧ c.object.freed = false := by
  constructor
  · intro hc
    refine ⟨?_, not_freed_of_find hc⟩
    unfold find at hc
    split at hc
    · cases hc
    · next c' hc' =>
      split at hc
      · cases hc
      · rw [hc', Except.ok.inj hc]
  · rintro ⟨hc, hfreed⟩
    simp [find, hc, hfreed]

theorem live_iff : h.Live p ↔ ∃ c, h.cell? p = some c ∧ c.object.freed = false := by
  simp only [← find_eq_ok_iff]
  exact ⟨fun hp => hp.find, fun ⟨_, hc⟩ => live_of_find hc⟩

theorem cell?_setCell : (h.setCell p c).cell? q = if q = p then some c else h.cell? q := by
  unfold cell? setCell
  rw [getElem?_insert]
  by_cases hq : q = p
  · simp [hq]
  · simp [hq, Ne.symm hq]

theorem cell?_freeCell : (h.freeCell p c).cell? q = if q = p then some c.dead else h.cell? q := by
  unfold cell? freeCell
  rw [getElem?_insert]
  by_cases hq : q = p
  · simp [hq, Cell.dead]
  · simp [hq, Ne.symm hq]

theorem cell?_allocate (size align : Int64) (o : Object) : (h.allocate size align o).2.cell? q =
      if q = h.nextBase align + wordSize then some ⟨1, { o with size := size, freed := false }⟩
      else h.cell? q := by
  unfold cell? allocate
  rw [getElem?_insert]
  by_cases hq : q = h.nextBase align + wordSize
  · simp [hq]
  · simp [hq, Ne.symm hq]

theorem mem_cells_iff : p ∈ h.cells ↔ ∃ c, h.cell? p = some c := by
  rw [cell?, ← Option.isSome_iff_exists, isSome_getElem?_iff_mem]

/-- A cell that is changed in its place is no new one. -/
theorem size_insert_of_cell (hc : h.cell? p = some c) (c' : Cell) :
    (h.cells.insert p c').size = h.cells.size := by
  rw [size_insert, if_pos (mem_cells_iff.2 ⟨c, hc⟩)]

/-- There are no more objects than cells. -/
theorem card_liveSet_le (h : Heap) : h.liveSet.card ≤ h.cells.size := by
  rw [liveSet, ← length_keys]
  exact (card_filter_le _ _).trans (List.toFinset_card_le _)

-- ======== addresses

theorem toInt_add {a b : Int64} (hlow : -2 ^ 63 ≤ a.toInt + b.toInt)
    (hhigh : a.toInt + b.toInt < 2 ^ 63) : (a + b).toInt = a.toInt + b.toInt := by
  rw [Int64.toInt_add]
  exact Int.bmod_eq_of_le (by simpa using hlow) (by simpa using hhigh)

/-- Clearing the low bits of a word rounds it down. -/
theorem and_mask {x : Nat} (hx : x < 2 ^ 64) : x &&& (2 ^ 64 - 8) = x / 8 * 8 := by
  have hmask : (2 ^ 64 - 8 : Nat) = (2 ^ 61 - 1) <<< 3 := by decide
  have hround : x / 8 * 8 = (x >>> 3) <<< 3 := by
    rw [Nat.shiftRight_eq_div_pow, Nat.shiftLeft_eq]
  rw [hmask, hround]
  refine Nat.eq_of_testBit_eq fun i => ?_
  simp only [Nat.testBit_and, Nat.testBit_shiftLeft, Nat.testBit_shiftRight,
    Nat.testBit_two_pow_sub_one]
  by_cases hi : 3 ≤ i
  · by_cases hlt : i < 64
    · have hbits : i - 3 < 61 := by omega
      simp [hi, hbits]
    · have hpow : x < 2 ^ i := hx.trans_le (Nat.pow_le_pow_right (by decide) (Nat.le_of_not_lt hlt))
      simp [hi, Nat.testBit_lt_two_pow hpow]
  · simp [hi]

/-- Clearing three bits rounds down to a multiple of eight. -/
theorem toInt_and_mask {x : Int64} (hx : 0 ≤ x.toInt) :
    x.toInt - 7 ≤ (x &&& ~~~7).toInt ∧ (x &&& ~~~7).toInt ≤ x.toInt := by
  have hmsb : x.toBitVec.msb = false := by
    rw [BitVec.msb_eq_toInt]
    simpa using hx
  have hleft : x.toInt = x.toBitVec.toNat := BitVec.toInt_eq_toNat_of_msb hmsb
  have hright : (x &&& ~~~7).toInt = (x.toBitVec &&& ~~~7).toNat := by
    refine BitVec.toInt_eq_toNat_of_msb ?_
    show (x.toBitVec &&& ~~~7).msb = false
    rw [BitVec.msb_and, hmsb]
    rfl
  have hround : (x.toBitVec &&& ~~~7).toNat = x.toBitVec.toNat / 8 * 8 := by
    rw [BitVec.toNat_and]
    exact and_mask x.toBitVec.isLt
  rw [hleft, hright, hround]
  omega

/-- The count of the next object stands behind all that is there, by less than
a word. -/
theorem nextBase_bounds {align : Int64} (halign : max align wordSize = wordSize)
    (hlow : 0 ≤ h.next.toInt) (hhigh : h.next.toInt + 7 < 2 ^ 63) :
    h.next.toInt ≤ (h.nextBase align).toInt ∧ (h.nextBase align).toInt ≤ h.next.toInt + 7 := by
  have hbase : h.nextBase align = (h.next + 7) &&& ~~~7 := by
    have hsum : h.next + 8 - 1 = h.next + 7 := by
      rw [Int64.sub_eq_add_neg, Int64.add_assoc]
      rfl
    rw [nextBase, halign, wordSize, hsum]
    rfl
  have hseven : (h.next + 7).toInt = h.next.toInt + 7 :=
    toInt_add (by show -2 ^ 63 ≤ h.next.toInt + 7; omega) hhigh
  rw [hbase]
  obtain ⟨hge, hle⟩ := @toInt_and_mask (h.next + 7) (by omega)
  omega

-- ======== layout

/-- The heap after so much memory was asked for: objects stand one behind the
other, before the place for the next. -/
structure Laid (n : Nat) (h : Heap) : Prop where
  all : h.cells.size = h.allocs
  low : 0x1000 ≤ h.next.toInt
  high : h.next.toInt ≤ 0x1000 + n
  cell : ∀ p c, h.cell? p = some c → c.Sane
  place : ∀ p c, h.cell? p = some c → 0 ≤ c.object.size.toInt ∧
    p.toInt + c.object.size.toInt ≤ h.next.toInt
  live : h.live = h.liveSet.card
  apart : ∀ p q c d, h.cell? p = some c → h.cell? q = some d → p ≠ q →
    p.toInt + c.object.size.toInt ≤ q.toInt - 8 ∨ q.toInt + d.object.size.toInt ≤ p.toInt - 8

/-- The empty heap has asked for nothing. -/
theorem laid_empty : Laid 0 empty where
  all := rfl
  low := by decide
  high := by decide
  cell p c hc := by simp [cell?, empty] at hc
  place p c hc := by simp [cell?, empty] at hc
  live := by
    have hnone : empty.liveSet = ∅ := by
      refine eq_empty_of_forall_notMem fun p hp => ?_
      obtain ⟨c, hc, -⟩ := live_iff.1 (mem_liveSet.1 hp)
      simp [cell?, empty] at hc
    rw [hnone]
    rfl
  apart p q c d hc := by simp [cell?, empty] at hc

/-- What is laid out is sane. -/
theorem Laid.sane (hl : Laid n h) : h.Sane where
  all := hl.all
  freed p c hc := (hl.cell p c hc).1
  counted p c hc := (hl.cell p c hc).2
  live := hl.live
  apart p q c d hc hd hne := by
    rw [range, range, Set.disjoint_left]
    rintro x ⟨hx, hx'⟩ ⟨hy, hy'⟩
    rcases hl.apart p q c d hc hd hne with h | h <;> omega

section

variable (hl : Laid n h) {align : Int64} (halign : max align wordSize = wordSize)
  (hroom : 0x1000 + n + 16 ≤ 2 ^ 63)
include hl halign hroom

/-- Where the next object is placed. -/
theorem Laid.place_bounds : h.next.toInt + 8 ≤ (h.nextBase align + wordSize).toInt ∧
    (h.nextBase align + wordSize).toInt ≤ h.next.toInt + 15 := by
  have hlow := hl.low
  have hhigh := hl.high
  obtain ⟨hge, hle⟩ := nextBase_bounds halign (h := h) (by omega) (by omega)
  have hplace : (h.nextBase align + wordSize).toInt = (h.nextBase align).toInt + 8 :=
    toInt_add (by show -2 ^ 63 ≤ (h.nextBase align).toInt + 8; omega)
      (by show (h.nextBase align).toInt + 8 < 2 ^ 63; omega)
  omega

/-- The place for the next object has not been given out. -/
theorem Laid.fresh : h.cell? (h.nextBase align + wordSize) = none := by
  obtain ⟨hge, -⟩ := hl.place_bounds halign hroom
  cases hd : h.cell? (h.nextBase align + wordSize) with
  | none => rfl
  | some d =>
    have := hl.place _ d hd
    omega

end

/-- A cell is changed in its place. -/
theorem Laid.replace (hl : Laid n h) (hc : h.cell? p = some c) (hc' : c'.Sane)
    (hsize : c'.object.size = c.object.size) (hnext : h'.next = h.next)
    (hall : h'.cells.size = h'.allocs) (hlive : h'.live = h'.liveSet.card)
    (hcell : ∀ q, h'.cell? q = if q = p then some c' else h.cell? q) : Laid n h' := by
  -- every cell stands where one of the same size stood
  have hold : ∀ q d, h'.cell? q = some d → ∃ d₀, h.cell? q = some d₀ ∧
      d.object.size = d₀.object.size ∧ (d = d₀ ∨ d = c') := by
    intro q d hd
    rw [hcell] at hd
    split at hd
    · next hq =>
      subst hq
      exact ⟨c, hc, by rw [← Option.some.inj hd, hsize], .inr (Option.some.inj hd).symm⟩
    · exact ⟨d, hd, rfl, .inl rfl⟩
  refine ⟨hall, hnext ▸ hl.low, hnext ▸ hl.high, ?_, ?_, hlive, ?_⟩
  · intro q d hd
    obtain ⟨d₀, hd₀, -, rfl | rfl⟩ := hold q d hd
    · exact hl.cell q _ hd₀
    · exact hc'
  · intro q d hd
    obtain ⟨d₀, hd₀, hs, -⟩ := hold q d hd
    rw [hs, hnext]
    exact hl.place q d₀ hd₀
  · intro q r d e hd he hne
    obtain ⟨d₀, hd₀, hs, -⟩ := hold q d hd
    obtain ⟨e₀, he₀, hs', -⟩ := hold r e he
    rw [hs, hs']
    exact hl.apart q r d₀ e₀ hd₀ he₀ hne

/-- A cell is replaced by one of the same size. -/
theorem stays_replace (hc : h.cell? p = some c) (hsize : c'.object.size = c.object.size)
    (hfreed : c.object.freed = true → c'.object.freed = true)
    (hcell : ∀ q, h'.cell? q = if q = p then some c' else h.cell? q) : Stays h h' := by
  intro q d hd
  by_cases hq : q = p
  · subst hq
    rw [hc] at hd
    cases hd
    exact ⟨c', by rw [hcell, if_pos rfl], hsize, hfreed⟩
  · exact ⟨d, by rw [hcell, if_neg hq, hd], rfl, id⟩

/-- Changing an object without freeing it frees none. -/
theorem liveSet_setCell (hc : h.cell? p = some c) (hfreed : c'.object.freed = c.object.freed) :
    (h.setCell p c').liveSet = h.liveSet := by
  ext q
  rw [mem_liveSet, mem_liveSet, live_iff, live_iff, cell?_setCell]
  by_cases hq : q = p
  · subst hq
    simp [hc, hfreed]
  · simp [hq]

theorem liveSet_freeCell : (h.freeCell p c).liveSet = h.liveSet.erase p := by
  ext q
  rw [Finset.mem_erase, mem_liveSet, mem_liveSet, live_iff, live_iff, cell?_freeCell]
  by_cases hq : q = p
  · simp [hq, Cell.dead]
  · simp [hq]

theorem liveSet_allocate {size align : Int64} {o : Object} :
    (h.allocate size align o).2.liveSet = insert (h.nextBase align + wordSize) h.liveSet := by
  ext q
  rw [Finset.mem_insert, mem_liveSet, mem_liveSet, live_iff, live_iff, cell?_allocate]
  by_cases hq : q = h.nextBase align + wordSize
  · simp [hq]
  · simp [hq]

section

variable (hl : Laid n h)
include hl

/-- A cell is changed and its object is freed only if it was. -/
theorem Laid.setCell (hc : h.cell? p = some c) (hc' : c'.Sane)
    (hsize : c'.object.size = c.object.size) (hfreed : c'.object.freed = c.object.freed) :
    Laid n (h.setCell p c') ∧ Stays h (h.setCell p c') := by
  refine ⟨hl.replace hc hc' hsize rfl ?_ ?_ fun _ => cell?_setCell,
    stays_replace hc hsize (fun h => hfreed.trans h) fun _ => cell?_setCell⟩
  · exact (size_insert_of_cell hc c').trans hl.all
  · rw [liveSet_setCell hc hfreed]
    exact hl.live

/-- The last reference to an object goes, and the object is freed. -/
theorem Laid.free (hc : h.find p = .ok c) :
    Laid n ((h.setCell p c.less).freeCell p c.less) ∧
      Stays h ((h.setCell p c.less).freeCell p c.less) := by
  obtain ⟨hcell, hfreed⟩ := find_eq_ok_iff.1 hc
  have hcells (q : Address) : ((h.setCell p c.less).freeCell p c.less).cell? q =
      if q = p then some c.dead else h.cell? q := by
    rw [cell?_freeCell, cell?_setCell]
    split <;> rfl
  have hlive : ((h.setCell p c.less).freeCell p c.less).liveSet = h.liveSet.erase p := by
    rw [liveSet_freeCell, liveSet_setCell hcell (rfl : c.less.object.freed = c.object.freed)]
  have hdead : c.dead.Sane := ⟨by simp [Cell.dead], by simp [Cell.dead]⟩
  refine ⟨hl.replace hcell hdead rfl rfl ?_ ?_ hcells,
    stays_replace hcell (rfl : c.dead.object.size = c.object.size) (fun _ => rfl) hcells⟩
  · have hset := size_insert_of_cell (h.cell_setCell p c.less) c.dead
    exact hset.trans ((size_insert_of_cell hcell _).trans hl.all)
  · have hmem : p ∈ h.liveSet := mem_liveSet.2 (live_of_find hc)
    have hcard := card_erase_add_one hmem
    have hbefore := hl.live
    rw [hlive]
    rw [Heap.live] at hbefore ⊢
    show (h.allocs : Int) - ((h.frees + 1 : Nat) : Int) = _
    push_cast
    omega

/-- A new object stands behind all others. -/
theorem Laid.allocate {align : Int64} (halign : max align wordSize = wordSize)
    (size : Nat) (o : Object) (hroom : 0x1000 + (n + (size + 16)) < 2 ^ 63) :
    Laid (n + (size + 16)) (h.allocate (Int64.ofNat size) align o).2 ∧
      Stays h (h.allocate (Int64.ofNat size) align o).2 := by
  have hlow := hl.low
  have hhigh := hl.high
  obtain ⟨hge, hle⟩ := hl.place_bounds halign (by omega)
  have hsize : (Int64.ofNat size).toInt = size := Int64.toInt_ofNat_of_lt (by omega)
  have hend : (h.nextBase align + wordSize + Int64.ofNat size).toInt =
      (h.nextBase align + wordSize).toInt + size := by
    rw [toInt_add, hsize] <;> rw [hsize] <;> omega
  have hbehind : ∀ q d, h.cell? q = some d →
      q.toInt + d.object.size.toInt ≤ (h.nextBase align + wordSize).toInt - 8 := by
    intro q d hd
    have := (hl.place q d hd).2
    omega
  have hfresh := hl.fresh halign (by omega)
  refine ⟨⟨?_, ?_, ?_, ?_, ?_, ?_, ?_⟩, ?_⟩
  · show (h.cells.insert _ _).size = h.allocs + 1
    rw [size_insert, if_neg, hl.all]
    rw [mem_cells_iff, hfresh]
    simp
  · show 0x1000 ≤ (h.nextBase align + wordSize + Int64.ofNat size).toInt
    omega
  · show (h.nextBase align + wordSize + Int64.ofNat size).toInt ≤ _
    omega
  · intro q d hd
    rw [cell?_allocate] at hd
    split at hd
    · cases hd
      exact ⟨by simp, by simp⟩
    · exact hl.cell q d hd
  · intro q d hd
    show _ ∧ _ ≤ (h.nextBase align + wordSize + Int64.ofNat size).toInt
    rw [cell?_allocate] at hd
    split at hd
    · next hq =>
      cases hd
      subst hq
      dsimp only
      omega
    · have := hl.place q d hd
      omega
  · rw [liveSet_allocate, card_insert_of_notMem]
    · have hlive := hl.live
      rw [Heap.live] at hlive ⊢
      show ((h.allocs + 1 : Nat) : Int) - h.frees = _
      push_cast
      omega
    · intro hmem
      obtain ⟨d, hd, -⟩ := live_iff.1 (mem_liveSet.1 hmem)
      rw [hfresh] at hd
      cases hd
  · intro q r d e hd he hne
    rw [cell?_allocate] at hd he
    split at hd
    · next hq =>
      cases hd
      rw [if_neg fun hr => hne (hq.trans hr.symm)] at he
      subst hq
      exact .inr (hbehind r e he)
    · split at he
      · next hr =>
        cases he
        subst hr
        exact .inl (hbehind q d hd)
      · exact hl.apart q r d e hd he hne
  · intro q d hd
    refine ⟨d, ?_, rfl, id⟩
    rw [cell?_allocate, if_neg, hd]
    rintro rfl
    rw [hfresh] at hd
    cases hd

-- ======== evolution

/-- One step keeps the layout while there is room, and objects stay. -/
theorem Laid.step (hs : Step h m h') (hroom : 0x1000 + (n + m) < 2 ^ 63) :
    Laid (n + m) h' ∧ Stays h h' := by
  cases hs with
  | allocate halign size o => exact hl.allocate halign size o hroom
  | @more p c hc =>
    obtain ⟨hcell, hfreed⟩ := find_eq_ok_iff.1 hc
    have hpos := (hl.cell p c hcell).2 hfreed
    have hcount : c.more.count = c.count + 1 := rfl
    exact hl.setCell hcell (Cell.sane_of_pos hfreed (by omega)) rfl rfl
  | @less p c hc hn =>
    obtain ⟨hcell, hfreed⟩ := find_eq_ok_iff.1 hc
    have hpos := (hl.cell p c hcell).2 hfreed
    have hcount : c.less.count = c.count - 1 := rfl
    exact hl.setCell hcell (Cell.sane_of_pos hfreed (by omega)) rfl rfl
  | free hc hn => exact hl.free hc
  | @rewrite p c hc o hsize hfreed =>
    have hsane := hl.cell p c hc
    refine hl.setCell hc ⟨?_, ?_⟩ hsize hfreed
    · rw [hfreed]
      exact hsane.1
    · intro h
      exact hsane.2 (hfreed ▸ h)

/-- Whatever is done to a heap leaves it sane, and what was freed stays so, as
long as there are addresses. -/
theorem Laid.evolves (he : Evolves h m h') (hroom : 0x1000 + (n + m) < 2 ^ 63) :
    Laid (n + m) h' ∧ Stays h h' := by
  induction he generalizing n with
  | refl => exact ⟨hl, .refl⟩
  | @step _ _ _ k l hs _ ih =>
    obtain ⟨hl', hstays⟩ := hl.step hs (by omega)
    obtain ⟨hl'', hstays'⟩ := ih hl' (by omega)
    rw [add_assoc] at hl''
    exact ⟨hl'', hstays.trans hstays'⟩

end

end Heap

end RefCount.Machine
