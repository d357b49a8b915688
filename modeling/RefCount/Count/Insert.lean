/-
Inserting counts. A tracked variable owns a reference from its definition to
its last use: a consuming operand takes the reference over, so a variable that
is still needed afterwards is counted once more before; a variable that is
only looked at is released after its last use. A projection of a tracked
variable has no reference of its own to start with, and is counted if it is
used at all. Variables derived from borrowed parameters own nothing: each
consuming operand of one is counted before, and none is ever released.

A variable that is live at the end of a block but not at the start of a
successor is released on the edge between: at the start of the successor if
all its edges release the same variables, and otherwise in a block of its own
on each edge that releases any.
-/
import RefCount.Borrow.Infer
import RefCount.Ir.Check
import RefCount.Liveness

namespace RefCount.Count

open Ir

/-- What insertion knows of a function. -/
structure Facts where
  cls : Classes
  sigs : Signatures
  types : Array TypeId
  derived : BitSet

namespace Facts

/-- Whether a variable holds counted references. -/
def isCounted (c : Facts) (v : Var) : Bool := c.cls.needsCount (c.types.getD v .none)

/-- Whether a variable owns a reference that has to be released. -/
def isTracked (c : Facts) (v : Var) : Bool := c.isCounted v && !c.derived.contains v

end Facts

-- ======== operands

/-- How often operands consume and borrow a variable. -/
structure Usage where
  var : Var
  consumed : Nat
  borrowed : Nat
  deriving DecidableEq, Repr, Inhabited

/-- One more operand. -/
def addUse (us : List Usage) (v : Var) (consumes : Bool) : List Usage :=
  match us with
  | [] => [if consumes then ⟨v, 1, 0⟩ else ⟨v, 0, 1⟩]
  | u :: rest =>
    if u.var = v then
      (if consumes then { u with consumed := u.consumed + 1 }
        else { u with borrowed := u.borrowed + 1 }) :: rest
    else u :: addUse rest v consumes

/-- The operands of an instruction, each with whether it consumes. Moving a
borrowed alias only makes another. -/
def operands (c : Facts) : Instr → List (Var × Bool)
  | .construct _ _ _ args => args.map (·, true)
  | .closure _ _ captures => captures.map (·, true)
  | .callClosure _ closure args => (closure, false) :: args.map (·, true)
  | .call _ func args _ =>
    args.zipIdx.map fun (a, i) => (a, Borrow.takesOver (c.sigs.find? func) i)
  | .move _ src => [(src, !c.derived.contains src)]
  | x => x.uses.map (·, false)

/-- The operands of a terminator: what is returned or handed to a block is
consumed. -/
def termOperands : Option Term → List (Var × Bool)
  | some (.ret v) => [(v, true)]
  | some (.jump _ args) => args.map (·, true)
  | some t => t.uses.map (·, false)
  | none => []

/-- The usage of each operand variable, in order of first occurrence. -/
def usages (ops : List (Var × Bool)) : List Usage :=
  ops.foldl (fun us (v, consumes) => addUse us v consumes) []

/-- Counts before and after an instruction. -/
structure Around where
  before : List Instr
  after : List Instr
  deriving Inhabited

/-- The counts that a usage needs, given whether the variable is live after
the instruction. -/
def aroundUse (c : Facts) (u : Usage) (liveAfter : Bool) : Around :=
  let incs (n : Nat) : List Instr := List.replicate n (.inc u.var)
  if c.isTracked u.var then
    if liveAfter then ⟨incs u.consumed, []⟩
    else if u.consumed = 0 then ⟨[], [.dec u.var]⟩
    else if u.borrowed = 0 then ⟨incs (u.consumed - 1), []⟩
    else ⟨incs u.consumed, [.dec u.var]⟩
  else if c.isCounted u.var then ⟨incs u.consumed, []⟩
  else ⟨[], []⟩

/-- The counts that the operands of an instruction need. -/
def aroundUses (c : Facts) (live : BitSet) (us : List Usage) : Around :=
  let each := us.map fun u => aroundUse c u (live.contains u.var)
  ⟨each.flatMap (·.before), each.flatMap (·.after)⟩

/-- The counts that a definition needs, given whether it is live. -/
def afterDef (c : Facts) (x : Instr) (d : Var) (isLive : Bool) : List Instr :=
  let isPart := match x with
    | .project _ src _ _ => c.isTracked src
    | _ => false
  if isLive then (if isPart then [.inc d] else [])
  else (if isPart then [] else [.dec d])

-- ======== blocks

/-- Code from some point of a block on, and what is live there. -/
structure Suffix where
  live : BitSet
  code : List Instr

/-- The tracked variables of a list become live. -/
def useAll (c : Facts) (live : BitSet) (vs : List Var) : BitSet :=
  vs.foldl (fun s v => if c.isTracked v then s.insert v else s) live

/-- What stands before the terminator. -/
def termSuffix (c : Facts) (out : BitSet) (t : Option Term) : Suffix :=
  ⟨useAll c out ((t.map Term.uses).getD []), (aroundUses c out (usages (termOperands t))).before⟩

/-- One more instruction, with its counts around it. -/
def consInstr (c : Facts) (x : Instr) (s : Suffix) : Suffix :=
  let defined := x.def?.filter c.isTracked
  let afterDefs := match defined with
    | some d => afterDef c x d (s.live.contains d)
    | none => []
  let live := match defined with
    | some d => s.live.erase d
    | none => s.live
  let around := aroundUses c live (usages (operands c x))
  ⟨useAll c live x.uses, around.before ++ x :: (afterDefs ++ around.after) ++ s.code⟩

/-- The variables that have their values at the start of a block: its
parameters, or those of the function. -/
def startVars (f : Func) (b : Block) : List Var :=
  if b.id = f.entry then f.params.map (·.var) else b.params

def countBlock (c : Facts) (f : Func) (out : BitSet) (b : Block) : Block :=
  let s := b.code.foldr (consInstr c) (termSuffix c out b.term)
  let unused := (startVars f b).filter fun v => c.isTracked v && !s.live.contains v
  { b with code := unused.map .dec ++ s.code }

-- ======== edges

/-- An edge from a block, and the variables to release on it. -/
structure Edge where
  source : BlockId
  gap : List Var
  deriving DecidableEq, Repr, Inhabited

def edgesInto (f : Func) (l : Liveness) (target : BlockId) : List Edge :=
  f.blocks.toList.filterMap fun b =>
    if b.leadsTo target then
      some ⟨b.id, ((l.outs.getD b.id .empty).diff (l.ins.getD target .empty)).toList⟩
    else none

/-- A variable for each type. -/
def newVars (f : Func) (types : List TypeId) : List Var × Func :=
  types.foldl (fun (vs, f) t => let (v, f) := f.newVar t; (vs ++ [v], f)) ([], f)

/-- Puts a block on an edge that releases variables. -/
def splitEdge (target : BlockId) (f : Func) (e : Edge) : Func :=
  let params := ((f.block? target).map (·.params)).getD []
  let (b, f) := f.newBlock
  let (args, f) := newVars f (params.map f.typeOf)
  let f := f.modifyBlock b fun b =>
    { b with params := args, code := e.gap.map .dec, term := some (.jump (some target) args) }
  f.modifyBlock e.source fun s =>
    { s with term := s.term.map (·.retarget (some target) (some b)) }

def releaseInto (f : Func) (target : BlockId) (edges : List Edge) : Func :=
  match edges with
  | [] => f
  | first :: _ =>
    if edges.all (·.gap = first.gap) then
      f.modifyBlock target fun b => { b with code := first.gap.map .dec ++ b.code }
    else (edges.filter (!·.gap.isEmpty)).foldl (splitEdge target) f

def releaseEdges (f : Func) (l : Liveness) : Func :=
  let all := (List.range f.blocks.size).map fun b => (b, edgesInto f l b)
  all.foldl (fun f (b, edges) => releaseInto f b edges) f

-- ======== function

/-- Why counts cannot be inserted. -/
inductive InsertError where
  | malformed (m : Malformed)
  | fault (f : Fault)
  deriving DecidableEq, Repr, Inhabited

/-- The wording of an error; a fault has none. -/
def InsertError.message : InsertError → String
  | malformed m => m.message
  | fault _ => ""

/-- What insertion knows of a function, from the modes of its parameters. -/
def factsOf (f : Func) (cls : Classes) (sigs : Signatures) : Except Fault Facts := do
  return ⟨cls, sigs, f.types, ← Borrow.derived f⟩

/-- The function with counts, given the facts and the liveness of its tracked
variables. -/
def insertWith (c : Facts) (l : Liveness) (f : Func) : Func :=
  let counted := f.blocks.map fun b => countBlock c f (l.outs.getD b.id .empty) b
  releaseEdges { f with blocks := counted } l

/-- Adds counts to a well-formed function so that every tracked variable is
released exactly once on every path. -/
def insert (f : Func) (cls : Classes) (sigs : Signatures) : Except InsertError Func := do
  match f.check .lowered with
  | .error m => throw (.malformed m)
  | .ok () =>
    let c ← (factsOf f cls sigs).mapError .fault
    let l ← (Liveness.compute f c.isTracked).mapError .fault
    return insertWith c l f

end RefCount.Count
