/-
Expanding pairs. A reset and its reuse become a test whether the value is
shared. If it is, it is released and a new one is built; if it is not, it is
updated in place: the old fields are released, the new ones are set, and the
tag is set if it changes.

A field that was projected and counted once before the reset, and not used
otherwise, is claimed: its count is left out, so that in place the field's own
reference is handed over instead of being released, and where the value is
shared the count is made up for. A field that is to hold what it holds already
is neither released nor set.
-/
import RefCount.Reuse.Annotate
import RefCount.Types.Class

namespace RefCount.Reuse

open Ir

/-- What expansion did. -/
structure ExpandStats where
  /-- Pairs that became a test. -/
  expanded : Nat
  /-- Pairs that became a release and a construction again. -/
  fallback : Nat
  /-- Counts of projections that were left out. -/
  claimed : Nat
  /-- Fields that hold their value already. -/
  selfSets : Nat
  deriving DecidableEq, Repr, Inhabited

/-- Sums up. -/
def ExpandStats.add (a b : ExpandStats) : ExpandStats :=
  ⟨a.expanded + b.expanded, a.fallback + b.fallback, a.claimed + b.claimed,
    a.selfSets + b.selfSets⟩

/-- Nothing was done. -/
def ExpandStats.zero : ExpandStats := ⟨0, 0, 0, 0⟩

-- ======== pairs

/-- A first reset in code, with what stands before and behind it. -/
structure ResetAt where
  before : List Instr
  token : Var
  var : Var
  behind : List Instr

def firstReset? : List Instr → Option ResetAt
  | [] => none
  | .reset token v :: rest => some ⟨[], token, v, rest⟩
  | x :: rest => (firstReset? rest).map fun r => { r with before := x :: r.before }

/-- A reuse in code, with what stands before and behind it. -/
structure ReuseAt where
  before : List Instr
  rebuild : Rebuild
  behind : List Instr

def firstReuse? (token : Var) : List Instr → Option ReuseAt
  | [] => none
  | x :: rest =>
    let later := (firstReuse? token rest).map fun r => { r with before := x :: r.before }
    match x with
    | .reuse dst t type variant args =>
      if t = token then some ⟨[], ⟨dst, type, variant, args⟩, rest⟩ else later
    | _ => later

/-- The known variants of reset values, by token. -/
abbrev Variants := List (Var × Int)

/-- The known variant of the value that is reset at a place. -/
def resetVariant? (pool : Pool) (f : Func) (b : Block) (i : Nat) :
    Instr → Except Fault (Option (Var × Int))
  | .reset token v => do
    return (← knownVariant? pool f b.id (b.code.take i) v).map (token, ·)
  | _ => .ok none

/-- The known variants of all values that are reset, the last first. -/
def variantsOf (pool : Pool) (f : Func) : Except Fault Variants := do
  let found ← f.blocks.toList.mapM fun b =>
    b.code.zipIdx.filterMapM fun (x, i) => resetVariant? pool f b i x
  return found.flatten.reverse

-- ======== claims

/-- The fields that are claimed, by the variable that they were projected
to. -/
abbrev Claims := List (Var × Int)

/-- Whether a projected variable is counted once, and not used otherwise. -/
def isCountedOnly (v : Var) (code : List Instr) : Bool :=
  match code.filter (·.usesVar v) with
  | [.inc _] => true
  | _ => false

/-- The fields of a variable that can be claimed, in the order of their
projections; a field is claimed once. -/
def claimsIn (v : Var) (between : List Instr) (taken : List Int) : List Instr → Claims
  | [] => []
  | x :: rest =>
    match x with
    | .project dst src _ field =>
      if src = v && !taken.contains field && isCountedOnly dst (rest ++ between) then
        (dst, field) :: claimsIn v between (field :: taken) rest
      else claimsIn v between taken rest
    | _ => claimsIn v between taken rest

/-- The field that a variable claims; of several projections to it the last
counts. -/
def Claims.field? (c : Claims) (v : Var) : Option Int := c.reverse.lookup v

def Claims.hasField (c : Claims) (field : Int) : Bool :=
  c.any fun (v, _) => c.field? v = some field

/-- The variables that claim fields, in increasing order. -/
def Claims.vars (c : Claims) : List Var := (c.map (·.1)).eraseDups.mergeSort

/-- The code without the counts of claimed fields. -/
def Claims.strip (c : Claims) (code : List Instr) : List Instr :=
  code.filter fun
    | .inc v => (c.field? v).isNone
    | _ => true

-- ======== in place

/-- The source and the field of the first projection to a variable. -/
def projectionOf? (f : Func) (v : Var) : Option (Var × Int) :=
  f.instrs.findSome? fun
    | .project dst src _ field => if dst = v then some (src, field) else none
    | _ => none

/-- Whether a field is to hold what it holds already. -/
def staysPut (f : Func) (claims : Claims) (v : Var) (oldCount : Nat) (a : Var) (k : Nat) : Bool :=
  let origin := match claims.field? a with
    | some field => some (v, field)
    | none => projectionOf? f a
  origin = some (v, (k : Int)) && k < oldCount

/-- Releases an old field: not if it is claimed; if it stays, only the count of
its projection; otherwise the field itself. -/
def releaseField (cls : Classes) (claims : Claims) (v : Var) (old : Int) (stays : List (Var × Bool))
    (s : List Instr × Func) (field : TypeId × Nat) : List Instr × Func :=
  let (t, k) := field
  match stays[k]? with
  | some (a, true) =>
    if (claims.field? a).isNone && cls.needsCount t then (s.1 ++ [.dec a], s.2) else s
  | _ =>
    if claims.hasField (k : Int) then s
    else if cls.needsCount t then
      let (o, f) := s.2.newVar t
      (s.1 ++ [.project o v old k, .dec o], f)
    else s

/-- The code that updates a value in place, the function with the variables
that it needs, and the number of fields that stay. -/
def updateInPlace (pool : Pool) (cls : Classes) (f : Func) (claims : Claims) (v : Var) (old : Int)
    (r : Rebuild) : List Instr × Func × Nat :=
  let oldTypes := (pool.fields (f.typeOf v) old).toOption.getD []
  let stays := r.args.zipIdx.map fun (a, k) => (a, staysPut f claims v oldTypes.length a k)
  let (released, f) := oldTypes.zipIdx.foldl (releaseField cls claims v old stays) ([], f)
  let sets := stays.zipIdx.filterMap fun ((a, stays), k) =>
    if stays then none else some (Instr.set v k a)
  let tag := if r.variant = old then [] else [Instr.setTag v r.variant]
  (released ++ sets ++ tag, f, (stays.filter (·.2)).length)

-- ======== blocks

/-- Whether a variable is used in a block with another number. -/
def usedOutside (f : Func) (v : Var) (b : BlockId) : Bool :=
  f.blocks.any fun c => c.id ≠ b && (c.termUses.contains v || c.code.any (·.usesVar v))

/-- The function after a step, what was done, and the blocks that may have
more pairs. -/
structure Expanded where
  func : Func
  stats : ExpandStats
  blocks : List BlockId

def withCode (f : Func) (place : BlockId) (code : List Instr) : Func :=
  f.modifyBlock place fun b => { b with code := code }

/-- Expands a pair of known variant. `place` is where the block stands. -/
def expandPair (pool : Pool) (cls : Classes) (f : Func) (place : BlockId) (b : Block)
    (reset : ResetAt) (reuse : ReuseAt) (old : Int) : Except Fault Expanded := do
  let v := reset.var
  let r := reuse.rebuild
  let claims := claimsIn v reuse.before [] reset.before
  let (fast, f) := f.newBlock
  let (slow, f) := f.newBlock
  let (shared, f) := f.newVar .bool
  let f := f.modifyBlock place fun b => { b with
    code := claims.strip (reset.before ++ reuse.before) ++ [.isShared shared v]
    term := some (.branch shared (some slow) (some fast)) }
  let (update, f, selfSets) := updateInPlace pool cls f claims v old r
  let f := withCode f fast update
  let restore := claims.vars.map Instr.inc ++ [.dec v]
  let f := withCode f slow restore
  let stats : ExpandStats := ⟨1, 0, claims.length, selfSets⟩
  if reuse.behind.isEmpty && !usedOutside f r.dst b.id then
    match b.term with
    | none => throw .terminator
    | some term =>
      let f := f.modifyBlock slow fun s =>
        { s with code := restore ++ [r.construct r.dst], term := some term }
      let f := f.modifyBlock fast fun s =>
        { s with term := some (term.substitute (replaceVar r.dst v)) }
      return ⟨f, stats, [b.id]⟩
  else
    match f.type? r.dst with
    | none => throw .variable
    | some t =>
      let (built, f) := f.newVar t
      let (merge, f) := f.newBlock
      let f := f.modifyBlock merge fun m =>
        { m with params := [r.dst], code := reuse.behind, term := b.term }
      let f := f.modifyBlock slow fun s =>
        { s with code := restore ++ [r.construct built], term := some (.jump (some merge) [built]) }
      let f := f.modifyBlock fast fun s => { s with term := some (.jump (some merge) [v]) }
      return ⟨f, stats, [b.id, merge]⟩

/-- Expands the first pair of a block, if there is one. A reset without a
reuse, or of unknown variant, becomes a release again. -/
def expandFirst? (pool : Pool) (cls : Classes) (variants : Variants) (f : Func) (place : BlockId)
    (b : Block) : Except Fault (Option Expanded) :=
  match firstReset? b.code with
  | none => .ok none
  | some reset =>
    let fallback (code : List Instr) : Expanded :=
      ⟨withCode f place (reset.before ++ .dec reset.var :: code), ⟨0, 1, 0, 0⟩, [b.id]⟩
    match firstReuse? reset.token reset.behind with
    | none => .ok (some (fallback reset.behind))
    | some reuse =>
      match variants.lookup reset.token with
      | none =>
        let r := reuse.rebuild
        .ok (some (fallback (reuse.before ++ r.construct r.dst :: reuse.behind)))
      | some old => do return some (← expandPair pool cls f place b reset reuse old)

/-- Expands the pairs of the waiting blocks, the last first, in at most so many
steps. -/
def expandWithin (pool : Pool) (cls : Classes) (variants : Variants) :
    Nat → Func → ExpandStats → List BlockId → Except Fault (Func × ExpandStats)
  | _, f, stats, [] => .ok (f, stats)
  | 0, _, _, _ :: _ => .error .limit
  | steps + 1, f, stats, place :: waiting =>
    match f.block? place with
    | none => .error .block
    | some b => do
      match ← expandFirst? pool cls variants f place b with
      | none => expandWithin pool cls variants steps f stats waiting
      | some e =>
        expandWithin pool cls variants steps e.func (stats.add e.stats)
          (e.blocks.reverse ++ waiting)

def isReset : Instr → Bool
  | .reset _ _ => true
  | _ => false

/-- Replaces all pairs by tests whether the value is shared. -/
def expand (pool : Pool) (cls : Classes) (f : Func) : Except Fault (Func × ExpandStats) := do
  let variants ← variantsOf pool f
  let waiting := (f.blocks.toList.map (·.id)).reverse
  let steps := waiting.length + 2 * (f.instrs.filter isReset).length
  expandWithin pool cls variants steps f .zero waiting

end RefCount.Reuse
