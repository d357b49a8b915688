/-
Dense sets of small naturals, as words of 64 bits. The number of words only
says how far the storage reaches: two sets are the same if they have the same
members. `contains` is the view; every operation is told by what it does to
membership. A visitor is shown the members word by word, the lowest bit of what
is left of a word first.

Keys may also be given as integers. No negative key can be inserted; asking
for one or erasing it finds nothing where the storage ends before the word that
the key falls into, division being towards zero, and otherwise has no answer.
-/
import RefCount.Fault

namespace RefCount

/-- A finite set of naturals. -/
structure BitSet where
  words : Array (BitVec 64)
  deriving Repr, Inhabited

namespace BitSet

/-- The set without members. -/
def empty : BitSet := ⟨#[]⟩

/-- The `i`-th word, zero beyond the storage. -/
def word (s : BitSet) (i : Nat) : BitVec 64 := s.words.getD i 0#64

/-- Whether `k` is a member. -/
def contains (s : BitSet) (k : Nat) : Bool := (s.word (k / 64)).getLsbD (k % 64)

/-- The same set with at least `n` words of storage. -/
def reserve (s : BitSet) (n : Nat) : BitSet :=
  ⟨s.words ++ Array.replicate (n - s.words.size) 0#64⟩

/-- The set with `k` as a member. -/
def insert (s : BitSet) (k : Nat) : BitSet :=
  let grown := s.reserve (k / 64 + 1)
  ⟨grown.words.modify (k / 64) (· ||| BitVec.twoPow 64 (k % 64))⟩

/-- The set without `k`. -/
def erase (s : BitSet) (k : Nat) : BitSet :=
  ⟨s.words.modify (k / 64) (· &&& ~~~(BitVec.twoPow 64 (k % 64)))⟩

/-- Adds words to the words of a set from a place on, and says whether one of
them has changed. -/
def addWords (ws : Array (BitVec 64)) (changed : Bool) :
    Nat → List (BitVec 64) → Array (BitVec 64) × Bool
  | _, [] => (ws, changed)
  | i, x :: xs =>
    let old := ws.getD i 0#64
    addWords (ws.setIfInBounds i (old ||| x)) (changed || old ||| x != old) (i + 1) xs

/-- Adds the members of another set, and says whether the set has changed. -/
def merge (s t : BitSet) : BitSet × Bool :=
  let r := addWords (s.reserve t.words.size).words false 0 t.words.toList
  (⟨r.1⟩, r.2)

/-- The members of either set. -/
def union (s t : BitSet) : BitSet := (s.merge t).1

/-- The members of the first set that are not in the second. -/
def diff (s t : BitSet) : BitSet := ⟨s.words.mapIdx fun i w => w &&& ~~~(t.word i)⟩

def same (s t : BitSet) : Bool :=
  (List.range (max s.words.size t.words.size)).all fun i => s.word i == t.word i

/-- The number of members. -/
def size (s : BitSet) : Nat :=
  s.words.foldl (fun n w => n + (List.range 64).countP w.getLsbD) 0

-- ======== the members in order

/-- A word without its lowest bit. -/
def clearLowest (w : BitVec 64) : BitVec 64 := w &&& ~~~(BitVec.twoPow 64 w.ctz.toNat)

theorem clearLowest_lt {w : BitVec 64} (h : w ≠ 0#64) : (clearLowest w).toNat < w.toNat := by
  have hlow := BitVec.getLsbD_true_ctz_of_ne_zero h
  have hle : (clearLowest w).toNat ≤ w.toNat := by
    rw [clearLowest, BitVec.toNat_and]
    exact Nat.and_le_left
  refine Nat.lt_of_le_of_ne hle fun heq => ?_
  -- the lowest bit is gone
  have hbit : (clearLowest w).getLsbD w.ctz.toNat = w.getLsbD w.ctz.toNat := by
    rw [BitVec.eq_of_toNat_eq heq]
  rw [clearLowest, BitVec.getLsbD_and, BitVec.getLsbD_not, BitVec.getLsbD_twoPow, hlow] at hbit
  simp [BitVec.lt_of_getLsbD hlow] at hbit

section Visit

variable {σ : Type} (f : σ → Nat → σ × Bool)

/-- Shows the keys of one word to a visitor, who keeps a state and says whether
to go on, from the lowest bit up. -/
def visitWord (i : Nat) (w : BitVec 64) (a : σ) : σ × Bool :=
  if w = 0#64 then (a, true)
  else
    match f a (i * 64 + w.ctz.toNat) with
    | (b, true) => visitWord i (clearLowest w) b
    | (b, false) => (b, false)
termination_by w.toNat
decreasing_by exact clearLowest_lt ‹_›

/-- Shows the keys of words that stand from a place on. -/
def visitWords : Nat → List (BitVec 64) → σ → σ
  | _, [], a => a
  | i, w :: ws, a =>
    match visitWord f i w a with
    | (b, true) => visitWords (i + 1) ws b
    | (b, false) => b

end Visit

/-- Shows the keys of a set in ascending order to a visitor, until it has seen
enough. -/
def visit {σ : Type} (s : BitSet) (f : σ → Nat → σ × Bool) (init : σ) : σ :=
  visitWords f 0 s.words.toList init

/-- The members in increasing order. -/
def toList (s : BitSet) : List Nat := (s.visit (fun ks k => (ks.push k, true)) #[]).toList

def ofList (ks : List Nat) : BitSet := ks.foldl insert empty

-- ======== integer keys

/-- Whether the storage ends before the word of a negative key. -/
def endsBefore (s : BitSet) (k : Int) : Bool := -64 < k && s.words.isEmpty

/-- Membership of an integer key. -/
def containsKey (s : BitSet) (k : Int) : Except Fault Bool :=
  if 0 ≤ k then .ok (s.contains k.toNat)
  else if s.endsBefore k then .ok false
  else .error .key

def insertKey (s : BitSet) (k : Int) : Except Fault BitSet :=
  if 0 ≤ k then .ok (s.insert k.toNat) else .error .key

/-- Removal of an integer key. -/
def eraseKey (s : BitSet) (k : Int) : Except Fault BitSet :=
  if 0 ≤ k then .ok (s.erase k.toNat)
  else if s.endsBefore k then .ok s
  else .error .key

end BitSet

end RefCount
