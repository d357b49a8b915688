/-
Queues of waiting numbers. A queue is a way to keep the numbers in a state of
its own: `push` adds one, `pop?` takes one out, `toList` lists what is in.
Which one comes out first is the queue's own affair; all that an analysis may
rely on is that each number that goes in comes out once.

`Queue.byRank` is a binary heap: the number of least rank comes first.
-/

namespace RefCount

/-- A way to keep waiting numbers. -/
structure Queue where
  State : Type
  empty : State
  push : State → Nat → State
  pop? : State → Option (Nat × State)
  toList : State → List Nat

namespace Queue

-- ======== heaps

/-- Moves the number at a place up until its parent is not after it. -/
def siftUp (before : Nat → Nat → Bool) (h : Array Nat) (i : Nat) : Array Nat :=
  if i = 0 then h
  else
    let up := (i - 1) / 2
    if before (h.getD i 0) (h.getD up 0) then siftUp before (h.swapIfInBounds i up) up else h
termination_by i
decreasing_by omega

/-- The earlier of the children of a place, the left one of equals; none
without children. -/
def child? (before : Nat → Nat → Bool) (h : Array Nat) (i : Nat) : Option Nat :=
  let left := 2 * i + 1
  let right := left + 1
  if h.size ≤ left then none
  else if right < h.size && before (h.getD right 0) (h.getD left 0) then some right
  else some left

/-- Moves the number at a place down until no child is before it, at most so
many times. -/
def siftDown (before : Nat → Nat → Bool) : Nat → Array Nat → Nat → Array Nat
  | 0, h, _ => h
  | steps + 1, h, i =>
    match child? before h i with
    | none => h
    | some c =>
      if before (h.getD c 0) (h.getD i 0) then siftDown before steps (h.swapIfInBounds i c) c
      else h

/-- The queue that gives out numbers of lower rank first. -/
def byRank (rank : Nat → Nat) : Queue :=
  let before (a b : Nat) : Bool := rank a < rank b
  { State := Array Nat
    empty := #[]
    push := fun h x => siftUp before (h.push x) h.size
    pop? := fun h =>
      match h[0]? with
      | none => none
      | some x =>
        let rest := (h.swapIfInBounds 0 (h.size - 1)).pop
        some (x, siftDown before rest.size rest 0)
    toList := Array.toList }

end Queue

end RefCount
