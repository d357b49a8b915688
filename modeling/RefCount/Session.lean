/-
Working with functions one pass at a time. A session holds functions, the
modes of their parameters, a cache, a table of drop descriptors, and a machine
to run the functions on.

Functions are held under numbers that never change their meaning: a pass
changes the function under its number, so a machine, which knows functions by
name and number, runs what the passes have made of them. A copy, or a function
from the cache, gets a number of its own.
-/
import RefCount.Machine.Show
import RefCount.Machine.Step
import RefCount.Pipeline

namespace RefCount

open Ir Machine

namespace Session

-- ======== machines

/-- How to build a value. -/
inductive Recipe where
  | unit
  | int (n : Int64)
  | float (x : Float)
  | bool (b : Bool)
  | str (s : Bytes)
  | tuple (elems : List Recipe)
  | object (type : TypeId) (variant : Int) (fields : List Recipe)
  | address (p : Address)
  /-- What a register holds. -/
  | register (name : String)
  deriving Inhabited

/-- Values by the names of registers. -/
abbrev Registers := List (String × Value)

mutual

/-- Builds a value, from left to right and what is inside first. -/
def Recipe.build (regs : Registers) : Recipe → Run Value
  | .unit => return .unit
  | .int n => return .int n
  | .float x => return .float x
  | .bool b => return .ofBool b
  | .str s => newStr s
  | .tuple elems => do return .tuple (← buildAll regs elems)
  | .object t variant fields => do newObject t variant (← buildAll regs fields)
  | .address p => return .ref p
  | .register name => return (regs.lookup name).getD .unit

/-- Builds values from left to right. -/
def Recipe.buildAll (regs : Registers) : List Recipe → Run (List Value)
  | [] => return []
  | r :: rs => do
    let v ← r.build regs
    return v :: (← Recipe.buildAll regs rs)

end

/-- A machine with its registers. -/
structure Simulator where
  /-- The numbers of the functions, by name. -/
  funcs : List (String × Nat)
  sigs : Signatures
  drops : Option Drop.Table
  hasOutput : Bool
  maxDepth : Int
  world : World
  registers : Registers
  /-- The arguments of calls, by the register of their result. -/
  arguments : List (String × List Value)
  deriving Inhabited

end Session

/-- Functions to work with, and what is known of them. -/
structure Session where
  pool : Pool
  /-- The functions, by number. -/
  store : Array Func
  /-- The numbers of the current functions. -/
  current : List Nat
  sigs : Signatures
  classes : Option Classes
  cache : Cache
  drops : Option Drop.Table
  simulator : Option Session.Simulator
  deriving Inhabited

namespace Session

def start (pool : Pool) (fs : List Func) (sigs : Signatures) : Session :=
  ⟨pool, fs.toArray, List.range fs.length, sigs, none, .empty, none, none⟩

/-- The function under a number. -/
def stored (s : Session) (n : Nat) : Func := s.store.getD n default

def funcs (s : Session) : List Func := s.current.map s.stored

/-- The current function at a place. -/
def func? (s : Session) (i : Nat) : Option Func := (s.current[i]?).map s.stored

/-- The place of the first current function with a name. -/
def place? (s : Session) (name : String) : Option Nat := s.funcs.findIdx? (·.name = name)

/-- The session with a function changed. -/
def setStored (s : Session) (n : Nat) (f : Func) : Session :=
  { s with store := s.store.setIfInBounds n f }

/-- The session with the current function at a place changed. -/
def setFunc (s : Session) (i : Nat) (f : Func) : Session :=
  match s.current[i]? with
  | some n => s.setStored n f
  | none => s

/-- The session with one more current function, and its place. -/
def addFunc (s : Session) (f : Func) : Nat × Session :=
  (s.current.length, { s with store := s.store.push f, current := s.current ++ [s.store.size] })

/-- The session with all current functions changed. -/
def setFuncs (s : Session) (fs : List Func) : Session :=
  (s.current.zip fs).foldl (fun s (n, f) => s.setStored n f) s

-- ======== passes

/-- The classes of the types, found when they are first needed. -/
def freeze (s : Session) : Except Fault (Classes × Session) :=
  match s.classes with
  | some cls => .ok (cls, s)
  | none =>
    match Classes.ofPool s.pool with
    | .ok cls => .ok (cls, { s with classes := some cls })
    | .error _ => .error .type

/-- Which variables of blocks of a function hold counted references; each of
the variables has a type. Without variables no classes are needed. -/
def counted (s : Session) (f : Func) (bs : List Block) :
    Except Fault ((Var → Bool) × Session) := do
  let vars := bs.flatMap (·.vars)
  if vars.isEmpty then return (fun _ => false, s)
  let (cls, s) ← s.freeze
  if vars.all (· < f.types.size) then return (fun v => cls.needsCount (f.typeOf v), s)
  else throw .variable

/-- The numbers of the functions after an analysis: those taken from the cache
get new ones. -/
def renumber (s : Session) : List Nat → List (Func × Bool) → Session
  | n :: ns, (f, isCached) :: rest =>
    let (n, s) := if isCached then (s.store.size, { s with store := s.store.push f }) else (n, s)
    let s := s.renumber ns rest
    { s with current := n :: s.current }
  | _, _ => { s with current := [] }

/-- Analyses the current functions, with the cache of the session or without
one. -/
def analyze (s : Session) (settings : Pipeline.Settings) (useCache : Bool) :
    Except Fault (Except Pipeline.AnalyzeError Pipeline.Analysis × Session) := do
  let cache := if useCache then some s.cache else none
  let o ← Pipeline.analyze settings cache s.pool s.sigs s.funcs
  let s := { s.setFuncs o.left with cache := o.cache.getD s.cache }
  match o.result with
  | .error e => return (.error e, s)
  | .ok a =>
    let results := a.funcs.zip (a.stats.map (·.cached))
    let s := s.renumber s.current results
    return (.ok a, { s with sigs := a.sigs, classes := some a.classes, drops := some a.drops })

/-- Infers the modes of the parameters of the current functions. -/
def infer (s : Session) :
    Except Fault (Except Borrow.InferError Borrow.Inferred × Session) := do
  let (cls, s) ← s.freeze
  match Borrow.infer s.funcs s.sigs cls with
  | .ok r => return (.ok r, { s with sigs := r.sigs })
  | .error (.fault f) => throw f
  | .error e => return (.error e, s)

/-- Writes the modes into the parameters of the current functions. -/
def applyModes (s : Session) : Except Fault Session := do
  return s.setFuncs (← s.funcs.mapM (Borrow.applyModes s.sigs))

/-- Collects the drop descriptors of the current functions. -/
def collectDrops (s : Session) : Except Fault (Drop.Table × Session) := do
  let (cls, s) ← s.freeze
  let table ← Drop.Table.collect s.pool cls s.funcs
  return (table, { s with drops := some table })

/-- The key of a function with the current modes. -/
def key (s : Session) (f : Func) (version : String) : Except Fault Cache.Key :=
  Cache.key s.pool f s.sigs version

/-- Puts a function into the cache, with the report on it as it is. -/
def putCached (s : Session) (f : Func) (version : String) : Except Fault Session := do
  let k ← s.key f version
  return { s with cache := s.cache.put k ⟨f, ← Reuse.report s.pool f⟩ }

/-- Searches the cache for a function. -/
def findCached (s : Session) (f : Func) (version : String) :
    Except Fault (Option Cache.Entry × Session) := do
  let (e, c) := s.cache.find (← s.key f version)
  return (e, { s with cache := c })

-- ======== running

/-- A new machine for the current functions. Of functions with one name the
last is known. -/
def startMachine (s : Session) (useDrops hasOutput : Bool) (maxDepth : Int) : Session :=
  let m : Simulator :=
    { funcs := ((s.funcs.map (·.name)).zip s.current).reverse
      sigs := s.sigs
      drops := if useDrops then s.drops else none
      hasOutput := hasOutput
      maxDepth := maxDepth
      world := .initial
      registers := []
      arguments := [] }
  { s with simulator := some m }

/-- What the machine runs on: the functions as they are now. -/
def env (s : Session) (m : Simulator) : Env :=
  { pool := s.pool
    funcs := m.funcs.map fun (name, n) => (name, s.stored n)
    sigs := m.sigs
    drops := m.drops
    hasOutput := m.hasOutput
    maxDepth := m.maxDepth }

/-- Runs an operation on the machine. -/
def perform {α : Type} (s : Session) (x : Env → Run α) :
    Except Fault (Except RunError α × Session) :=
  match s.simulator with
  | none => .error .missing
  | some m =>
    let (r, w) := (x (s.env m)).run.run m.world
    let s := { s with simulator := some { m with world := w } }
    match r with
    | .ok a => .ok (.ok a, s)
    | .error e =>
      match e.cause with
      | .fault f => .error f
      | _ => .ok (.error e, s)

/-- Builds values on the machine. -/
def build (s : Session) (rs : List Recipe) : Except Fault (List Value × Session) := do
  let regs := ((s.simulator.map (·.registers)).getD [])
  match ← s.perform fun _ => Recipe.buildAll regs rs with
  | (.ok vs, s) => return (vs, s)
  | (.error _, _) => throw .missing

def modifyMachine (s : Session) (g : Simulator → Simulator) : Session :=
  { s with simulator := s.simulator.map g }

def setRegister (s : Session) (name : String) (v : Value) : Session :=
  s.modifyMachine fun m => { m with registers := (name, v) :: m.registers }

/-- Calls a function. Its result is kept in a register, and its arguments under
the name of the register, even if it fails. -/
def callFunc (s : Session) (reg func : String) (args : List Value) :
    Except Fault (Except RunError Value × Session) := do
  let s := s.modifyMachine fun m => { m with arguments := (reg, args) :: m.arguments }
  match ← s.perform fun env => Machine.call env func args with
  | (.ok v, s) => return (.ok v, s.setRegister reg v)
  | (.error e, s) => return (.error e, s)

/-- Releases the arguments that the call kept under a register has only
borrowed. -/
def releaseBorrowed (s : Session) (func reg : String) :
    Except Fault (Except RunError Unit × Session) :=
  let args := (s.simulator.bind (·.arguments.lookup reg)).getD []
  s.perform fun env => Machine.releaseBorrowed env func args

/-- The world of the machine, whose output is taken away. -/
def takeWorld (s : Session) : Except Fault (World × Session) :=
  match s.simulator with
  | none => .error .missing
  | some m => .ok (m.world, s.modifyMachine fun m => { m with world := { m.world with lines := [] } })

end Session

end RefCount
