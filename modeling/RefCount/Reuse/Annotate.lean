/-
Pairing releases with constructions. The release of a boxed value of known
variant is paired with the first construction of the same type behind it in
the block, unless the value is used before or by it: the release becomes a
reset, which may keep the memory, and the construction a reuse of it. A pair
does not reach over the reuse of another, so pairs nest.
-/
import RefCount.Reuse.Variant

namespace RefCount.Reuse

open Ir

/-- A construction that can take over memory. -/
structure Rebuild where
  dst : Var
  type : TypeId
  variant : Int
  args : List Var
  deriving DecidableEq, Repr, Inhabited

/-- The construction in new memory. -/
def Rebuild.construct (r : Rebuild) (dst : Var) : Instr := .construct dst r.type r.variant r.args

/-- The first construction of a type in code that does not use a variable, and
its place. -/
def findConstruct? (v : Var) (t : TypeId) : List Instr → Option (Nat × Rebuild)
  | [] => none
  | x :: rest =>
    match x with
    | .reuse _ _ _ _ _ => none
    | .construct dst type variant args =>
      if args.contains v then none
      else if type = t then some (0, ⟨dst, type, variant, args⟩)
      else (findConstruct? v t rest).map fun (j, r) => (j + 1, r)
    | x =>
      if x.usesVar v then none
      else (findConstruct? v t rest).map fun (j, r) => (j + 1, r)

/-- Pairs the release at a place, if it can be paired. -/
def pairAt (pool : Pool) (f : Func) (b : Block) (i : Nat) :
    Except Fault (Option (List Instr × Func)) :=
  match b.code[i]? with
  | some (.dec v) =>
    match f.type? v with
    | none => .error .variable
    | some t =>
      if pool.isBoxed t then
        match findConstruct? v t (b.code.drop (i + 1)) with
        | none => .ok none
        | some (j, r) => do
          match ← knownVariant? pool f b.id (b.code.take i) v with
          | none => return none
          | some _ =>
            let (token, f) := f.newVar .unit
            let code := (b.code.set i (.reset token v)).set (i + 1 + j)
              (.reuse r.dst token r.type r.variant r.args)
            return some (code, f)
      else .ok none
  | _ => .ok none

/-- Pairs the release at a place of a block, and counts pairs. -/
def annotateAt (pool : Pool) (b : BlockId) (s : Func × Nat) (i : Nat) :
    Except Fault (Func × Nat) := do
  match s.1.block? b with
  | none => return s
  | some blk =>
    match ← pairAt pool s.1 blk i with
    | none => return s
    | some (code, f) => return (f.modifyBlock b fun b => { b with code := code }, s.2 + 1)

/-- Pairs the releases of a block, from the first on. -/
def annotateBlock (pool : Pool) (s : Func × Nat) (b : BlockId) : Except Fault (Func × Nat) :=
  let places := ((s.1.block? b).map (·.code.length)).getD 0
  (List.range places).foldlM (annotateAt pool b) s

/-- The function with its releases paired, and the number of pairs. -/
def annotate (pool : Pool) (f : Func) : Except Fault (Func × Nat) :=
  (List.range f.blocks.size).foldlM (annotateBlock pool) (f, 0)

end RefCount.Reuse
