/-
Live variables. A variable is live at a point if some path from there uses it
before defining it. Only tracked variables are looked at.

The sets at the starts of blocks grow from nothing: the reachable blocks wait
in a queue, in postorder so that successors mostly come first, and whenever
the set at the start of a block changes its predecessors wait again. A set at
the start of a block holds only variables that some block uses, so it changes
at most that often, which bounds the number of turns.
-/
import RefCount.BitSet
import RefCount.Ir.Flow
import RefCount.Queue

namespace RefCount

open Ir

/-- What is live at the start and at the end of each block, and how many turns
it took to find out. -/
structure Liveness where
  ins : Array BitSet
  outs : Array BitSet
  iterations : Nat
  deriving Inhabited

-- ======== transfer

/-- What a piece of code does to live variables: it uses some before it
defines them, and it defines some. -/
structure Transfer where
  gen : BitSet
  kill : BitSet
  deriving Inhabited

namespace Transfer

def useBefore (track : Var → Bool) (t : Transfer) (v : Var) : Transfer :=
  if track v then { t with gen := t.gen.insert v } else t

/-- The piece of code with a tracked definition before it. -/
def defBefore (track : Var → Bool) (t : Transfer) (v : Var) : Transfer :=
  if track v then ⟨t.gen.erase v, t.kill.insert v⟩ else t

def instrBefore (track : Var → Bool) (x : Instr) (t : Transfer) : Transfer :=
  let t := match x.def? with
    | some v => t.defBefore track v
    | none => t
  x.uses.foldl (useBefore track) t

/-- What a block does. -/
def ofBlock (track : Var → Bool) (b : Block) : Transfer :=
  let last := b.termUses.foldl (useBefore track) ⟨.empty, .empty⟩
  b.params.foldl (defBefore track) (b.code.foldr (instrBefore track) last)

/-- What is live before a piece of code, given what is live after it. -/
def apply (t : Transfer) (out : BitSet) : BitSet := (out.diff t.kill).union t.gen

end Transfer

-- ======== solution

namespace Liveness

/-- The state of the search. -/
structure Search (q : Queue) where
  found : Liveness
  waiting : q.State
  isWaiting : Array Bool

/-- Lets a block wait, unless it waits already. -/
def Search.push (q : Queue) (s : Search q) (b : BlockId) : Search q :=
  if s.isWaiting.getD b false then s
  else { s with waiting := q.push s.waiting b, isWaiting := s.isWaiting.setIfInBounds b true }

/-- What is live at the end of a block: what is live at the start of any
successor. -/
def outOf (f : Func) (ins : Array BitSet) (b : BlockId) : Except Fault BitSet :=
  (f.successors b).foldlM
    (fun out s =>
      match ins[s]? with
      | some i => .ok (out.union i)
      | none => .error .block)
    .empty

/-- Looks at a block once more. -/
def Search.turn (q : Queue) (f : Func) (transfers : Array Transfer) (s : Search q)
    (b : BlockId) : Except Fault (Search q) := do
  let l := s.found
  let out ← outOf f l.ins b
  let i := (transfers.getD b default).apply out
  let l := { l with outs := l.outs.setIfInBounds b out, iterations := l.iterations + 1 }
  if i.same (l.ins.getD b .empty) then return { s with found := l }
  else
    let s := { s with found := { l with ins := l.ins.setIfInBounds b i } }
    return (f.preds b).foldl (Search.push q) s

/-- Takes turns until no block waits, at most so many. -/
def Search.run (q : Queue) (f : Func) (transfers : Array Transfer) :
    Nat → Search q → Except Fault Liveness
  | 0, _ => .error .limit
  | turns + 1, s =>
    match q.pop? s.waiting with
    | none => .ok s.found
    | some (b, rest) => do
      let s := { s with waiting := rest, isWaiting := s.isWaiting.setIfInBounds b false }
      (← s.turn q f transfers b).run q f transfers turns

/-- The most turns that it can take. -/
def turnBound (f : Func) (transfers : Array Transfer) : Nat :=
  let n := f.blocks.size
  let used := transfers.foldl (fun n t => n + t.gen.size) 0
  n + used * n * n + 1

/-- What each block does, under the number that the block carries. -/
def transfersOf (f : Func) (track : Var → Bool) : Except Fault (Array Transfer) :=
  f.blocks.foldlM
    (fun ts b =>
      if b.id < ts.size then .ok (ts.setIfInBounds b.id (.ofBlock track b)) else .error .block)
    (Array.replicate f.blocks.size default)

/-- The liveness of the tracked variables, found with a queue of one's own
choice. -/
def computeWith (q : Queue) (f : Func) (track : Var → Bool) : Except Fault Liveness := do
  let n := f.blocks.size
  let transfers ← transfersOf f track
  if n ≤ f.entry then throw .block
  let none := Array.replicate n BitSet.empty
  let start : Search q := ⟨⟨none, none, 0⟩, q.empty, Array.replicate n false⟩
  (f.postorder.foldl (Search.push q) start).run q f transfers (turnBound f transfers)

def compute (f : Func) (track : Var → Bool) : Except Fault Liveness :=
  let ranks := f.placesIn f.postorder
  computeWith (Queue.byRank fun b => ranks.getD b 0) f track

end Liveness

end RefCount
