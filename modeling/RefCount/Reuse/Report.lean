/-
What became of the memory of a function's boxed values: the pairs that reuse
it, and for every release that is left the reason why there is no pair. A
function that releases nothing without reusing it, and reuses something, works
in place.
-/
import RefCount.Reuse.Annotate

namespace RefCount.Reuse

open Ir

/-- A reset variable and what is built in its memory. -/
structure Pair where
  var : Var
  dst : Var
  type : TypeId
  block : BlockId
  deriving DecidableEq, Repr, Inhabited

/-- Why a release is not paired. -/
inductive Reason where
  /-- Nothing of the type is ever built. -/
  | noConstruct
  /-- Something of the type is built, but not after the release. -/
  | notDominated
  /-- Only other types are built afterwards. -/
  | typeMismatch
  /-- It is built in a later block. -/
  | otherBlock
  /-- The value is used in between. -/
  | usedBetween
  /-- The variant of the value is not known. -/
  | variantUnknown
  /-- Another pair is in between. -/
  | nested
  deriving DecidableEq, Repr, Inhabited

def Reason.text : Reason → String
  | noConstruct => "no_construct"
  | notDominated => "not_dominated"
  | typeMismatch => "type_mismatch"
  | otherBlock => "other_block"
  | usedBetween => "used_between"
  | variantUnknown => "variant_unknown"
  | nested => "nested"

/-- A place where a variable of a boxed type is built or released. -/
structure Site where
  block : BlockId
  pos : Nat
  var : Var
  type : TypeId
  deriving DecidableEq, Repr, Inhabited

/-- A release without reuse, and the construction that the reason is about. -/
structure Miss where
  var : Var
  block : BlockId
  reason : Reason
  candidate : Option Site
  deriving DecidableEq, Repr, Inhabited

/-- What became of the memory of a function's boxed values. -/
structure Report where
  achieved : List Pair
  missed : List Miss
  deriving DecidableEq, Repr, Inhabited

/-- Whether boxed values are built only in memory that was released. -/
def Report.isInPlace (r : Report) : Bool := r.missed.isEmpty && !r.achieved.isEmpty

-- ======== achieved

/-- The pairs in the code of a block, given the variables reset so far by
token. -/
def pairsIn (b : BlockId) : List (Var × Var) → List Instr → List Pair
  | _, [] => []
  | resets, .reset token v :: rest => pairsIn b ((token, v) :: resets) rest
  | resets, .reuse dst token type _ _ :: rest =>
    ⟨(resets.lookup token).getD 0, dst, type, b⟩ :: pairsIn b resets rest
  | resets, _ :: rest => pairsIn b resets rest

def achieved (f : Func) : List Pair := f.blocks.toList.flatMap fun b => pairsIn b.id [] b.code

-- ======== missed

/-- Where a function builds boxed values in new memory. -/
def constructSites (pool : Pool) (f : Func) : List Site :=
  f.blocks.toList.flatMap fun b => b.code.zipIdx.filterMap fun
    | (.construct dst type _ _, i) => if pool.isBoxed type then some ⟨b.id, i, dst, type⟩ else none
    | _ => none

/-- Whether a construction comes after a release on every way to it. -/
def isAfter (dom : Dominators) (release c : Site) : Bool :=
  if release.block = c.block then release.pos < c.pos else dom.dominates release.block c.block

/-- The first thing between a release and a construction that keeps them
apart. -/
def obstacle? (v : Var) : List Instr → Option Reason
  | [] => none
  | x :: rest =>
    if x.usesVar v then some .usedBetween
    else match x with
      | .reuse _ _ _ _ _ => some .nested
      | _ => obstacle? v rest

/-- Why a release is not paired with a later construction of its type. -/
def sameTypeReason (pool : Pool) (f : Func) (b : Block) (d c : Site) : Except Fault Reason :=
  if d.block ≠ c.block then .ok .otherBlock
  else if b.code.length < c.pos then .error .index
  else
    match obstacle? d.var ((b.code.take c.pos).drop (d.pos + 1)) with
    | some reason => .ok reason
    | none => do
      match ← knownVariant? pool f b.id (b.code.take d.pos) d.var with
      | none => return .variantUnknown
      | some _ => return .usedBetween

/-- What is said of a release. -/
def missOf (pool : Pool) (f : Func) (dom : Dominators) (sites : List Site) (b : Block) (d : Site) :
    Except Fault Miss := do
  let later := sites.filter (isAfter dom d)
  match later.find? (·.type = d.type), later.find? (·.type ≠ d.type),
      sites.find? (·.type = d.type) with
  | some c, _, _ => return ⟨d.var, d.block, ← sameTypeReason pool f b d c, some c⟩
  | none, some c, _ => return ⟨d.var, d.block, .typeMismatch, some c⟩
  | none, none, some c => return ⟨d.var, d.block, .notDominated, some c⟩
  | none, none, none => return ⟨d.var, d.block, .noConstruct, none⟩

/-- The release of a boxed value that an instruction is. -/
def releaseSite? (pool : Pool) (f : Func) (b : BlockId) (i : Nat) :
    Instr → Except Fault (Option Site)
  | .dec v =>
    match f.type? v with
    | none => .error .variable
    | some t => .ok (if pool.isBoxed t then some ⟨b, i, v, t⟩ else none)
  | _ => .ok none

/-- The releases of a block that are not paired. -/
def missedIn (pool : Pool) (f : Func) (dom : Dominators) (sites : List Site) (b : Block) :
    Except Fault (List Miss) :=
  b.code.zipIdx.filterMapM fun (x, i) => do
    match ← releaseSite? pool f b.id i x with
    | none => return none
    | some d => return some (← missOf pool f dom sites b d)

/-- The report on a function whose releases have been paired. -/
def report (pool : Pool) (f : Func) : Except Fault Report := do
  f.checkFlow
  let missed ← f.blocks.toList.mapM (missedIn pool f f.dominators (constructSites pool f))
  return ⟨achieved f, missed.flatten⟩

end RefCount.Reuse
