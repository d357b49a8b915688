/-
The flow of a graph: predecessors, orders of the blocks reachable from the
entry, and dominators.

Dominators are found by going over the blocks in reverse postorder until
nothing changes. The immediate dominator of a block is the point where the
dominator chains of its known predecessors meet; chains are followed upwards,
the one whose end comes later in the order first.
-/
import RefCount.Ir.Operands

namespace RefCount.Ir

namespace Func

-- ======== predecessors

/-- The numbers of the blocks with an edge to a block, in order. -/
def preds (f : Func) (b : BlockId) : List BlockId :=
  (f.blocks.toList.filter (·.leadsTo b)).map (·.id)

/-- The blocks that a place leads to. -/
def successors (f : Func) (b : BlockId) : List BlockId :=
  ((f.block? b).map Block.successors).getD []

-- ======== orders

/-- The blocks seen so far and those left, in order of leaving, the last
first. -/
structure Visit where
  seen : List BlockId
  left : List BlockId
  deriving Repr, Inhabited

/-- Visits a block and what it leads to, depth first, unless it has been seen
or is not there. The first argument bounds the depth. -/
def visit (f : Func) : Nat → Visit → BlockId → Visit
  | 0, s, _ => s
  | depth + 1, s, b =>
    if s.seen.contains b || f.blocks.size ≤ b then s
    else
      let s := (f.successors b).foldl (f.visit depth) { s with seen := b :: s.seen }
      { s with left := b :: s.left }

/-- The blocks reachable from the entry, the entry first: each block stands
before those it leads to, but for edges that go back. -/
def reversePostorder (f : Func) : List BlockId :=
  (f.visit (f.blocks.size + 1) ⟨[], []⟩ f.entry).left

/-- The blocks reachable from the entry, the entry last. -/
def postorder (f : Func) : List BlockId := f.reversePostorder.reverse

-- ======== dominators

end Func

/-- The immediate dominator of each block; the entry is its own, and a block
that is not reachable has none. -/
abbrev Dominators := Array (Option BlockId)

namespace Dominators

def idom (d : Dominators) (b : BlockId) : Option BlockId := d.getD b none

def isReachable (d : Dominators) (b : BlockId) : Bool := (d.idom b).isSome

/-- Where two chains of dominators meet. `order` gives the place of a block in
reverse postorder, and the first argument bounds the steps. -/
def meet (d : Dominators) (order : Array Nat) : Nat → BlockId → BlockId → BlockId
  | 0, a, _ => a
  | steps + 1, a, b =>
    if a = b then a
    else if order.getD b 0 < order.getD a 0 then
      d.meet order steps ((d.idom a).getD a) b
    else d.meet order steps a ((d.idom b).getD b)

/-- The meeting point of the known predecessors of a block. -/
def ofPreds (d : Dominators) (order : Array Nat) (preds : List BlockId) : Option BlockId :=
  preds.foldl
    (fun n p =>
      match d.idom p, n with
      | none, n => n
      | some _, none => some p
      | some _, some m => some (d.meet order (2 * d.size + 2) p m))
    none

/-- One pass over the blocks after the entry, and whether it changed
anything. -/
def pass (f : Func) (order : Array Nat) (blocks : List BlockId) (d : Dominators) :
    Dominators × Bool :=
  blocks.foldl
    (fun (d, changed) b =>
      let n := d.ofPreds order (f.preds b)
      if n = d.idom b then (d, changed) else (d.setIfInBounds b n, true))
    (d, false)

/-- Passes until nothing changes, at most so many. -/
def settle (f : Func) (order : Array Nat) (blocks : List BlockId) : Nat → Dominators → Dominators
  | 0, d => d
  | rounds + 1, d =>
    let (d, changed) := d.pass f order blocks
    if changed then d.settle f order blocks rounds else d

/-- Whether a block dominates another, found on the chain of the second of at
most so many steps. -/
def dominatesWithin (d : Dominators) (a : BlockId) : Nat → BlockId → Bool
  | 0, b => b = a
  | steps + 1, b =>
    if b = a then true
    else match d.idom b with
      | none => false
      | some p => if p = b then false else d.dominatesWithin a steps p

/-- Whether every path from the entry to the second block passes the first;
both must be reachable. -/
def dominates (d : Dominators) (a b : BlockId) : Bool :=
  d.isReachable a && d.isReachable b && d.dominatesWithin a d.size b

end Dominators

namespace Func

/-- The place of each block in an order; blocks outside it have place 0. -/
def placesIn (f : Func) (order : List BlockId) : Array Nat :=
  order.zipIdx.foldl (fun places (b, i) => places.setIfInBounds b i)
    (Array.replicate f.blocks.size 0)

/-- The dominators of a function's blocks. -/
def dominators (f : Func) : Dominators :=
  let rpo := f.reversePostorder
  let start := (Array.replicate f.blocks.size none).setIfInBounds f.entry (some f.entry)
  Dominators.settle f (f.placesIn rpo) (rpo.drop 1) (f.blocks.size * f.blocks.size + 1) start

/-- The order of blocks and the dominators have an answer if the entry exists
and every predecessor of a reachable block carries the number of a block. -/
def checkFlow (f : Func) : Except Fault Unit :=
  if f.blocks.size ≤ f.entry then .error .block
  else if (f.reversePostorder.drop 1).all fun b => (f.preds b).all (· < f.blocks.size) then .ok ()
  else .error .block

end Func

end RefCount.Ir
