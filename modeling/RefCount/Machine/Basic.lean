/-
Running functions changes a world: the heap, some statistics, and what has
been printed. An operation that fails leaves the world as it was at that
point.
-/
import RefCount.Drop
import RefCount.Machine.Heap

namespace RefCount.Machine

open Ir

-- ======== worlds

/-- What has been done so far. -/
structure Stats where
  steps : Nat
  calls : Nat
  resets : Nat
  /-- Constructions that got memory back. -/
  reuses : Nat
  sets : Nat
  setTags : Nat
  deriving DecidableEq, Repr, Inhabited

/-- What running changes. -/
structure World where
  heap : Heap
  stats : Stats
  /-- The lines that have been printed, the last first. -/
  lines : List Bytes
  deriving Inhabited

/-- The world before anything has run. -/
def World.initial : World := ⟨.empty, ⟨0, 0, 0, 0, 0, 0⟩, []⟩

/-- What has been printed. -/
def World.out (w : World) : Bytes := w.lines.reverse.flatMap (· ++ [10])

/-- What stays the same while functions run. -/
structure Env where
  pool : Pool
  funcs : List (String × Func)
  sigs : Signatures
  /-- Which fields to release when an object is freed; without an entry, all
  of them. -/
  drops : Option Drop.Table
  /-- Whether what is printed goes anywhere. -/
  hasOutput : Bool
  maxDepth : Int
  deriving Inhabited

/-- The number of frames that calls may pile up, unless said otherwise. -/
def defaultDepth : Int := 10000

-- ======== errors

/-- Why running stops. -/
inductive RunError where
  | unreachable
  | switchOn (value : Int64)
  | noFunc (name : String)
  | arity (name : String) (given expected : Nat)
  | tooDeep (name : String)
  | undefined (v : Var)
  | heap (e : HeapError)
  | divisionByZero
  | unsupportedOp (op : Op)
  | unsupportedFloatOp (op : Op)
  | tupleField (field : Int) (count : Nat)
  | projectKind (kind : Nat)
  | projectVariant (variant field actual : Int)
  | tagKind (kind : Nat)
  | dropField (type : String) (index count : Nat)
  | inBlock (func : String) (block : BlockId) (e : RunError)
  | inTerminator (e : RunError)
  | inExtern (name : String) (e : RunError)
  | inReleaseArg (index : Nat) (e : RunError)
  | inArg (index : Nat) (e : RunError)
  | inClosure (e : RunError)
  | inCapture (index : Nat) (e : RunError)
  | inOperand (op : Op) (index : Nat) (e : RunError)
  | fault (f : Fault)
  deriving Repr, Inhabited

namespace RunError

/-- A cause behind its context; an empty context is left out. -/
def within (context cause : String) : String :=
  if context.isEmpty then cause else context ++ ": " ++ cause

/-- The wording of an error; a fault has none. -/
def message : RunError → String
  | unreachable => "unreachable executed"
  | switchOn n => "switch on " ++ toString n.toInt ++ ": unreachable executed"
  | noFunc name => within name "no such function"
  | arity name n m => name ++ ": " ++ toString n ++ " args, expected " ++ toString m
  | tooDeep name => within name "call stack overflow"
  | undefined v => varText v ++ ": read of unassigned var"
  | heap e => e.message
  | divisionByZero => "division by zero"
  | unsupportedOp op => "unsupported op " ++ op
  | unsupportedFloatOp op => "unsupported float op " ++ op
  | tupleField i n => bad ("tuple field " ++ toString i ++ " of " ++ toString n)
  | projectKind k => bad ("project from kind " ++ toString k)
  | projectVariant v i actual =>
    bad ("project " ++ toString v ++ "." ++ toString i ++ " of variant " ++ toString actual)
  | tagKind k => bad ("tag of kind " ++ toString k)
  | dropField t i n => bad ("drop " ++ t ++ ": field " ++ toString i ++ " of " ++ toString n)
  | inBlock f b e => within (f ++ ": " ++ blockText b) e.message
  | inTerminator e => within "terminator" e.message
  | inExtern name e => within ("extern " ++ name) e.message
  | inReleaseArg i e => within ("release arg " ++ toString i) e.message
  | inArg i e => within ("arg " ++ toString i) e.message
  | inClosure e => within "closure" e.message
  | inCapture i e => within ("capture " ++ toString i) e.message
  | inOperand op i e => within (op ++ " arg " ++ toString i) e.message
  | fault _ => ""
where
  /-- The wording for a value that does not fit. -/
  bad (what : String) : String := what ++ ": unexpected value"

/-- The error behind all contexts. -/
def cause : RunError → RunError
  | inBlock _ _ e => e.cause
  | inTerminator e => e.cause
  | inExtern _ e => e.cause
  | inReleaseArg _ e => e.cause
  | inArg _ e => e.cause
  | inClosure e => e.cause
  | inCapture _ e => e.cause
  | inOperand _ _ e => e.cause
  | e => e

end RunError

-- ======== running

/-- Running an operation. -/
abbrev Run := ExceptT RunError (StateM World)

/-- Puts the errors of an operation into a context. -/
def inContext {α : Type} (context : RunError → RunError) (x : Run α) : Run α :=
  tryCatch x fun e => throw (context e)

def getHeap : Run Heap := return (← get).heap

def modifyHeap (g : Heap → Heap) : Run Unit := modify fun w => { w with heap := g w.heap }

/-- The result of an operation on the heap. -/
def ofHeap {α : Type} : Except HeapError α → Run α
  | .ok a => return a
  | .error e => throw (.heap e)

/-- The result of an operation that may have none. -/
def ofFault {α : Type} : Except Fault α → Run α
  | .ok a => return a
  | .error f => throw (.fault f)

/-- Counts something that was done. -/
def tally (g : Stats → Stats) : Run Unit := modify fun w => { w with stats := g w.stats }

/-- The object at an address, with its count. -/
def cellAt (p : Address) : Run Cell := do ofHeap ((← getHeap).find p)

def objectAt (p : Address) : Run Object := return (← cellAt p).object

/-- A reference to a new object. -/
def allocate (size align : Int64) (o : Object) : Run Value :=
  modifyGet fun w =>
    let (p, h) := w.heap.allocate size align o
    (.ref p, { w with heap := h })

def newStr (s : Bytes) : Run Value :=
  allocate (Int64.ofNat s.length) 1 ⟨.str, 0, [], s, "", 0, false⟩

def objectSize (fields : List Value) : Int64 := Heap.wordSize * (1 + Int64.ofNat fields.length)

def newObject (t : TypeId) (variant : Int) (fields : List Value) : Run Value :=
  allocate (objectSize fields) Heap.wordSize ⟨t, variant, fields, [], "", 0, false⟩

def newClosure (t : TypeId) (func : String) (captures : List Value) : Run Value :=
  allocate (objectSize captures) Heap.wordSize ⟨t, 0, captures, [], func, 0, false⟩

end RefCount.Machine
