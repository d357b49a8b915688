/-
Well-formed graphs. Each variable is defined once, by a parameter of the
function or of a block or by an instruction; edges lead to blocks with the
right number of parameters, and none to the entry; in every reachable block,
every use stands after its definition, or in a block that the definition's
block dominates. A stage says which instructions may occur.

The checks go over the function in a fixed order and the first violation is
reported.
-/
import RefCount.Ir.Flow

namespace RefCount.Ir

/-- How far a function has been processed. -/
inductive Stage where
  /-- No counts, tokens or updates in place. -/
  | lowered
  /-- Everything may occur. -/
  | counted
  /-- No tokens. -/
  | expanded
  deriving DecidableEq, Repr, Inhabited

/-- What is wrong with a function. -/
inductive Violation where
  | noEntry (entry : BlockId)
  | outOfRange (v : Var)
  | definedTwice (v : Var)
  | wrongId (place : Nat) (id : BlockId)
  | tooEarly (b : BlockId) (instr : String)
  | unexpected (b : BlockId) (instr : String)
  | notTerminated (b : BlockId)
  | entryIsTarget (entry : BlockId)
  | undefinedUse (b : BlockId) (v : Var)
  | undefinedTermUse (b : BlockId) (v : Var)
  | missingBlock (b target : BlockId)
  | jumpArity (b target : BlockId) (actual expected : Nat)
  | branchToParams (b target : BlockId)
  | unavailable (b : BlockId) (v : Var)
  | unavailableTerm (b : BlockId) (v : Var)
  deriving DecidableEq, Repr, Inhabited

def Violation.message : Violation → String
  | noEntry b => "no entry block " ++ blockText b
  | outOfRange v => "var " ++ varText v ++ " out of range"
  | definedTwice v => "var " ++ varText v ++ " defined twice"
  | wrongId i id => "block " ++ toString i ++ " has id " ++ blockText id
  | tooEarly b x => blockText b ++ ": unexpected " ++ x ++ " before rc insertion"
  | unexpected b x => blockText b ++ ": unexpected " ++ x
  | notTerminated b => blockText b ++ ": not terminated"
  | entryIsTarget b => "entry block " ++ blockText b ++ " is a jump target"
  | undefinedUse b v => blockText b ++ ": use of undefined var " ++ varText v
  | undefinedTermUse b v => blockText b ++ ": terminator uses undefined var " ++ varText v
  | missingBlock b t => blockText b ++ ": jump to missing block " ++ blockText t
  | jumpArity b t n m =>
    blockText b ++ ": jump to " ++ blockText t ++ " with " ++ toString n ++ " args, want "
      ++ toString m
  | branchToParams b t => blockText b ++ ": branch to " ++ blockText t ++ " which has params"
  | unavailable b v =>
    blockText b ++ ": var " ++ varText v ++ " is not defined on every path to its use"
  | unavailableTerm b v =>
    blockText b ++ ": terminator var " ++ varText v ++ " is not defined on every path to its use"

/-- A violation in a function. -/
structure Malformed where
  func : String
  violation : Violation
  deriving DecidableEq, Repr, Inhabited

/-- The wording of a malformed function. -/
def Malformed.message (m : Malformed) : String :=
  m.func ++ ": " ++ m.violation.message ++ ": malformed ir"

-- ======== definitions

/-- Where a variable is defined: at the start of a block, or by one of its
instructions. -/
structure Site where
  block : BlockId
  pos : Option Nat
  deriving DecidableEq, Repr, Inhabited

/-- The definitions found so far, by variable. -/
abbrev Sites := Array (Option Site)

namespace Sites

/-- The definition of a variable. -/
def site? (s : Sites) (v : Var) : Option Site := s.getD v none

/-- Records a definition, which must be the first. -/
def define (s : Sites) (v : Var) (site : Site) : Except Violation Sites :=
  if s.size ≤ v then .error (.outOfRange v)
  else if (s.site? v).isSome then .error (.definedTwice v)
  else .ok (s.setIfInBounds v (some site))

def defineAll (s : Sites) (vs : List Var) (b : BlockId) : Except Violation Sites :=
  vs.foldlM (fun s v => s.define v ⟨b, none⟩) s

end Sites

/-- The name in messages of an instruction that not every stage allows, with
whether it is about tokens. -/
def staged? : Instr → Option (String × Bool)
  | .inc _ => some ("ir.Inc", false)
  | .dec _ => some ("ir.Dec", false)
  | .isShared _ _ => some ("ir.IsShared", false)
  | .set _ _ _ => some ("ir.Set", false)
  | .setTag _ _ => some ("ir.SetTag", false)
  | .reset _ _ => some ("ir.Reset", true)
  | .reuse _ _ _ _ _ => some ("ir.Reuse", true)
  | _ => none

/-- Whether a stage allows an instruction in a block. -/
def checkStage (stage : Stage) (b : BlockId) (x : Instr) : Except Violation Unit :=
  match staged? x with
  | none => .ok ()
  | some (name, true) => if stage = .counted then .ok () else .error (.unexpected b name)
  | some (name, false) => if stage = .lowered then .error (.tooEarly b name) else .ok ()

def defineCode (stage : Stage) (b : BlockId) (s : Sites) : Nat → List Instr → Except Violation Sites
  | _, [] => .ok s
  | j, x :: rest => do
    checkStage stage b x
    let s ← match x.def? with
      | some v => s.define v ⟨b, some j⟩
      | none => .ok s
    defineCode stage b s (j + 1) rest

/-- Checks the number of a block, records what it defines, and checks that it
has a terminator. -/
def defineBlock (stage : Stage) (s : Sites) (i : Nat) (b : Block) : Except Violation Sites := do
  if b.id ≠ i then throw (.wrongId i b.id)
  let s ← s.defineAll b.params b.id
  let s ← defineCode stage b.id s 0 b.code
  if b.term.isNone then throw (.notTerminated b.id)
  return s

/-- The definitions of a function. -/
def Func.sites (f : Func) (stage : Stage) : Except Violation Sites := do
  let start ← Sites.defineAll (Array.replicate f.types.size none) (f.params.map (·.var)) f.entry
  f.blocks.toList.zipIdx.foldlM (fun s (b, i) => defineBlock stage s i b) start

-- ======== uses

def checkDefined (s : Sites) (vs : List Var) (e : Var → Violation) : Except Violation Unit :=
  vs.forM fun v => if (s.site? v).isSome then .ok () else .error (e v)

/-- Checks that an edge of a block leads to a block that fits it. -/
def checkEdge (f : Func) (b : Block) (t : BlockId) : Except Violation Unit :=
  match f.block? t with
  | none => .error (.missingBlock b.id t)
  | some target =>
    match b.term with
    | some (.jump _ args) =>
      if args.length = target.params.length then .ok ()
      else .error (.jumpArity b.id t args.length target.params.length)
    | _ => if target.params.isEmpty then .ok () else .error (.branchToParams b.id t)

def checkBlock (f : Func) (s : Sites) (b : Block) : Except Violation Unit := do
  b.code.forM fun x => checkDefined s x.uses (.undefinedUse b.id)
  checkDefined s b.termUses (.undefinedTermUse b.id)
  b.successors.forM (checkEdge f b)

/-- Whether a definition reaches a position of a block on every path. -/
def available (s : Sites) (d : Dominators) (v : Var) (b : BlockId) (pos : Nat) : Bool :=
  match s.site? v with
  | none => false
  | some site =>
    if site.block = b then
      match site.pos with
      | none => true
      | some p => p < pos
    else d.dominates site.block b

/-- Checks that variables are available at a position. -/
def checkAvailable (s : Sites) (d : Dominators) (vs : List Var) (b : BlockId) (pos : Nat)
    (e : Var → Violation) : Except Violation Unit :=
  vs.forM fun v => if available s d v b pos then .ok () else .error (e v)

def checkUses (s : Sites) (d : Dominators) (b : Block) : Except Violation Unit := do
  if d.isReachable b.id then
    b.code.zipIdx.forM fun (x, j) => checkAvailable s d x.uses b.id j (.unavailable b.id)
    checkAvailable s d b.termUses b.id b.code.length (.unavailableTerm b.id)

/-- The first violation of well-formedness at a stage. -/
def Func.violation (f : Func) (stage : Stage) : Except Violation Unit := do
  if (f.block? f.entry).isNone then throw (.noEntry f.entry)
  let s ← f.sites stage
  if !(f.preds f.entry).isEmpty then throw (.entryIsTarget f.entry)
  f.blocks.toList.forM (checkBlock f s)
  let d := f.dominators
  f.blocks.toList.forM (checkUses s d)

/-- Checks that a function is well-formed at a stage. -/
def Func.check (f : Func) (stage : Stage) : Except Malformed Unit :=
  match f.violation stage with
  | .ok () => .ok ()
  | .error v => .error ⟨f.name, v⟩

end RefCount.Ir
