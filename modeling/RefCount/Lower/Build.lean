/-
Building a function. A builder holds the function so far and the block that
code goes to. A step of building gives a result or leaves: once control has
left there is no block to go on in, and nothing more is emitted until a new
block is taken up.
-/
import RefCount.Ir.Check
import RefCount.Match.Compile

namespace RefCount.Lower

open Ir

/-- Why a function cannot be lowered. -/
inductive LowerError where
  | undefined (name : String)
  | recurOutsideLoop
  | missingExpr
  | missingPattern
  | malformed (m : Malformed)
  | fault (f : Fault)
  deriving DecidableEq, Repr, Inhabited

/-- The wording of an error; a fault has none. -/
def LowerError.message : LowerError → String
  | undefined name => "undefined: " ++ name
  | recurOutsideLoop => "recur outside of loop"
  | missingExpr => "unsupported expression: <nil>"
  | missingPattern => "decision tree: unexpected pattern <nil>"
  | malformed m => m.message
  | fault _ => ""

/-- A function under construction. -/
structure Builder where
  func : Func
  /-- The block that code goes to. -/
  current : BlockId

abbrev Build := StateT Builder (Except LowerError)

/-- The value that a piece of code leaves in a variable; none if control
leaves it elsewhere. -/
abbrev Value := Option Var

/-- An edge into the block where branches meet. -/
structure Exit where
  block : BlockId
  value : Var
  deriving DecidableEq, Repr

def newVar (t : TypeId) : Build Var :=
  modifyGet fun s => let (v, f) := s.func.newVar t; (v, { s with func := f })

def newBlock : Build BlockId :=
  modifyGet fun s => let (b, f) := s.func.newBlock; (b, { s with func := f })

def enter (b : BlockId) : Build Unit :=
  modify fun s => { s with current := b }

/-- Adds an instruction to the current block. -/
def emit (x : Instr) : Build Unit :=
  modify fun s =>
    { s with func := s.func.modifyBlock s.current fun b => { b with code := b.code ++ [x] } }

def define (t : TypeId) (x : Var → Instr) : Build Var := do
  let v ← newVar t
  emit (x v)
  return v

def endBlock (b : BlockId) (t : Term) : Build Unit :=
  modify fun s => { s with func := s.func.modifyBlock b fun b => { b with term := some t } }

/-- Ends the current block. -/
def finish (t : Term) : Build Unit := do
  endBlock (← get).current t

def typeOf (v : Var) : Build TypeId := do
  match (← get).func.type? v with
  | some t => return t
  | none => throw (.fault .variable)

def setParams (b : BlockId) (params : List Var) : Build Unit :=
  modify fun s => { s with func := s.func.modifyBlock b fun b => { b with params := params } }

/-- The exit from the current block with a value, if control is still
there. -/
def exitWith : Value → Build (List Exit)
  | none => return []
  | some v => return [⟨(← get).current, v⟩]

/-- A new block where exits meet, and its parameter; none without exits. -/
def join (exits : List Exit) (t : TypeId) : Build Value :=
  if exits.isEmpty then return none
  else do
    let b ← newBlock
    let v ← newVar t
    setParams b [v]
    exits.forM fun e => endBlock e.block (.jump (some b) [e.value])
    enter b
    return some v

end RefCount.Lower
