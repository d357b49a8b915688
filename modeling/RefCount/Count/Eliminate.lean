/-
Cancelling counts. A count up and a count down of the same variable cancel if
nothing in between can tell: going up first, as long as the variable is not
used and no call or uniqueness test stands between; going down first, as long
as only instructions stand between that neither change nor see a count. A
count up at the end of a block also cancels with a count down at the start of
every successor, if the block is their only predecessor.

Every cancelled pair takes instructions away, so cancelling comes to an end.
-/
import RefCount.Ir.Flow

namespace RefCount.Count

open Ir

/-- Whether an instruction may look at counts of values that it does not
name. -/
def observes : Instr → Bool
  | .call _ _ _ _ => true
  | .callClosure _ _ _ => true
  | .isShared _ _ => true
  | .reset _ _ => true
  | _ => false

/-- Whether an instruction neither changes nor sees a count. -/
def isCountFree : Instr → Bool
  | .lit _ _ => true
  | .prim _ _ _ => true
  | .tag _ _ => true
  | .project _ _ _ _ => true
  | _ => false

/-- Whether code may not be crossed by a count of a variable. -/
def blocks (x : Instr) (v : Var) : Bool := x.usesVar v || observes x

-- ======== within blocks

/-- Whether an instruction counts a variable down. -/
def isDec (v : Var) : Instr → Bool
  | .dec w => w = v
  | _ => false

/-- Whether an instruction counts a variable up. -/
def isInc (v : Var) : Instr → Bool
  | .inc w => w = v
  | _ => false

/-- The code without the count down that a count up before it cancels
with. -/
def withoutDec? (v : Var) : List Instr → Option (List Instr)
  | [] => none
  | x :: rest =>
    if isDec v x then some rest
    else if blocks x v then none
    else (withoutDec? v rest).map (x :: ·)

/-- The code without the count up that a count down before it cancels
with. -/
def withoutInc? (v : Var) : List Instr → Option (List Instr)
  | [] => none
  | x :: rest =>
    if isInc v x then some rest
    else if isCountFree x then (withoutInc? v rest).map (x :: ·)
    else none

/-- The code after an instruction without the count that cancels with it. -/
def cancelWith? (x : Instr) (rest : List Instr) : Option (List Instr) :=
  match x with
  | .inc v => withoutDec? v rest
  | .dec v => withoutInc? v rest
  | _ => none

/-- The code without its first pair; none without a pair. -/
def cancel? : List Instr → Option (List Instr)
  | [] => none
  | x :: rest =>
    match cancelWith? x rest with
    | some code => some code
    | none => (cancel? rest).map (x :: ·)

/-- The code without pairs, and how many were taken away, at most so many. -/
def cancelAll : Nat → List Instr → List Instr × Nat
  | 0, code => (code, 0)
  | steps + 1, code =>
    match cancel? code with
    | none => (code, 0)
    | some code =>
      let (code, n) := cancelAll steps code
      (code, n + 1)

def cancelBlocks (f : Func) : Func × Nat :=
  let results := f.blocks.map fun b => cancelAll b.code.length b.code
  ({ f with blocks := f.blocks.zipWith (fun b r => { b with code := r.1 }) results },
    results.foldl (fun n r => n + r.2) 0)

-- ======== across edges

/-- Where a count down of a variable stands before anything it may not
cross. -/
def leadingDec? (v : Var) : List Instr → Option Nat
  | [] => none
  | x :: rest =>
    if isDec v x then some 0
    else if blocks x v then none
    else (leadingDec? v rest).map (· + 1)

def codeOf (f : Func) (b : BlockId) : List Instr := ((f.block? b).map (·.code)).getD []

/-- A function without the instruction at a place. -/
def eraseAt (f : Func) (b : BlockId) (i : Nat) : Func :=
  f.modifyBlock b fun b => { b with code := b.code.eraseIdx i }

/-- The function without the count up at a place and the count down that it
meets on every edge, if there are such. -/
def cancelOut (f : Func) (b : BlockId) (succs : List BlockId) (i : Nat) :
    Except Fault (Func × Nat) :=
  match (codeOf f b)[i]? with
  | some (.inc v) =>
    let used := (((f.block? b).map (·.termUses)).getD []).contains v
    if used || ((codeOf f b).drop (i + 1)).any (blocks · v) then .ok (f, 0)
    else
      match succs.mapM fun s => (leadingDec? v (codeOf f s)).map fun j => (s, j) with
      | none => .ok (f, 0)
      | some found =>
        let f := found.foldl (fun f (s, j) => eraseAt f s j) f
        if (codeOf f b).length ≤ i then .error .index else .ok (eraseAt f b i, 1)
  | _ => .ok (f, 0)

/-- Whether a block is the only predecessor of its successors. -/
def leadsAlone (f : Func) : List BlockId → Except Fault Bool
  | [] => .ok true
  | s :: rest =>
    if f.blocks.size ≤ s then .error .block
    else if (f.preds s).length = 1 then leadsAlone f rest
    else .ok false

/-- Cancels the counts at the end of a block, from the last on. -/
def cancelEnd (f : Func) (b : BlockId) : Except Fault (Func × Nat) := do
  let succs := f.successors b
  if succs.isEmpty then return (f, 0)
  else if ← leadsAlone f succs then
    (List.range (codeOf f b).length).reverse.foldlM
      (fun (f, n) i => do
        let (f, k) ← cancelOut f b succs i
        return (f, n + k))
      (f, 0)
  else return (f, 0)

def cancelEdges (f : Func) : Except Fault (Func × Nat) :=
  (List.range f.blocks.size).foldlM
    (fun (f, n) b => do
      let (f, k) ← cancelEnd f b
      return (f, n + k))
    (f, 0)

-- ======== to the end

/-- Cancels in rounds until nothing is left to cancel, at most so many. -/
def eliminateWithin : Nat → Func → Except Fault (Func × Nat)
  | 0, f => .ok (f, 0)
  | rounds + 1, f => do
    let (f, n) := cancelBlocks f
    let (f, m) ← cancelEdges f
    if n + m = 0 then return (f, 0)
    else
      let (f, more) ← eliminateWithin rounds f
      return (f, n + m + more)

/-- The function without pairs of counts that cancel, and how many there
were. -/
def eliminate (f : Func) : Except Fault (Func × Nat) :=
  eliminateWithin (f.instrs.length + 1) f

end RefCount.Count
