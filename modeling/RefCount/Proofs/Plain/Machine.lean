/-
Running without counts. Here functions work on trees: a variable holds the
tree of a value, and there is no heap that could be in or out of order.
Counting does nothing. Tokens and updates in place have no meaning here, so
this is about functions that have none.

A run goes on step by step like that of the machine, but knows only that
something has no result, not why.
-/
import Mathlib
import RefCount.Proofs.Heap.Tree

namespace RefCount.Plain

open Ir
open Machine (Tree Label intPrim floatPrim intBytes switchTarget)

-- ======== trees

/-- The integer that a tree is read as. -/
def toInt (t : Tree) : Int64 :=
  match t.label? with
  | some (.int n) => n
  | _ => 0

/-- The number that a tree is read as. -/
def toFloat (t : Tree) : Float :=
  match t.label? with
  | some (.float x) => x
  | _ => 0.0

/-- Whether a tree is an object. -/
def isObject (t : Tree) : Bool := t.label?.any (·.isObject)

/-- The text of a string. -/
def text? (t : Tree) : Option Bytes :=
  match t.label? with
  | some (.object _ _ s _ _) => some s
  | _ => none

/-- The tree of a string. -/
def str (pool : Pool) (s : Bytes) : Tree :=
  .leaf (.object (pool.underlying .str) 0 s "" 0)

/-- The tree of a result of arithmetic. -/
def scalar? : Except Machine.RunError Machine.Value → Option Tree
  | .ok (.int n) => some (.leaf (.int n))
  | .ok (.float x) => some (.leaf (.float x))
  | _ => none

-- ======== operations

/-- The tree of a literal. -/
def literal (pool : Pool) : Literal → Tree
  | .unit => .leaf .unit
  | .int n => .leaf (.int n)
  | .bool b => .leaf (.int (if b then 1 else 0))
  | .char c => .leaf (.int (Int64.ofInt c.toInt))
  | .float x => .leaf (.float x)
  | .str s => str pool s

/-- Whether an operation works on strings. -/
def isStringOp (op : Op) (args : List Tree) : Bool :=
  op = "concat" || op = "strlen" ||
    ((op = "eq" || op = "ne") && args.head?.any isObject)

/-- An operation on strings. -/
def strPrim (pool : Pool) (op : Op) (texts : List Bytes) : Option Tree :=
  match op, texts with
  | "concat", s :: t :: _ => some (str pool (s ++ t))
  | "strlen", s :: _ => some (.leaf (.int (Int64.ofNat s.length)))
  | "eq", s :: t :: _ => some (.leaf (.int (if s = t then 1 else 0)))
  | "ne", s :: t :: _ => some (.leaf (.int (if s ≠ t then 1 else 0)))
  | _, _ => none

/-- A primitive operation. -/
def prim (pool : Pool) (op : Op) (args : List Tree) : Option Tree :=
  if isStringOp op args then (args.mapM text?).bind (strPrim pool op)
  else
    match args with
    | [] => none
    | t :: rest =>
      let u := rest.headD (.leaf .unit)
      match t.label? with
      | some (.float x) => scalar? (floatPrim op x (toFloat u))
      | _ => scalar? (intPrim op (toInt t) (toInt u))

/-- A constructed tree. -/
def construct (pool : Pool) (t : TypeId) (variant : Int) (args : List Tree) :
    Option Tree :=
  (pool.shape? t).map fun shape =>
    if shape.kind = .tuple then .node (.tuple args.length) args
    else if pool.isBoxed t then
      .node (.object (pool.underlying t) variant [] "" args.length) args
    else .leaf (.int (Int64.ofInt variant))

/-- The tree of a closure. -/
def closure (pool : Pool) (t : TypeId) (func : String) (captures : List Tree) :
    Tree :=
  .node (.object (pool.underlying t) 0 [] func captures.length) captures

/-- A field of a tree. -/
def project (t : Tree) (variant field : Int) : Option Tree :=
  match t.label? with
  | some (.tuple n) =>
    if 0 ≤ field ∧ field < n then some (t.child field.toNat) else none
  | some (.object _ actual _ _ n) =>
    if actual = variant ∧ 0 ≤ field ∧ field < n then some (t.child field.toNat)
    else none
  | _ => none

/-- The tag of a tree. -/
def tagOf (t : Tree) : Option Tree :=
  match t.label? with
  | some (.int n) => some (.leaf (.int n))
  | some (.object _ variant _ _ _) => some (.leaf (.int (Int64.ofInt variant)))
  | _ => none

/-- What the functions that come with the machine give back. -/
def builtin? (pool : Pool) (name : String) (args : List Tree) : Option Tree :=
  match name with
  | "print" => some (.leaf .unit)
  | "print_int" => some (.leaf .unit)
  | "int_to_str" => args.head?.map fun t => str pool (intBytes (toInt t))
  | "drop" => some (.leaf .unit)
  | "keep" => args.head?
  | _ => none

-- ======== frames

/-- The functions of a program and the types that they mention, with what the
functions of the host give back. -/
structure Program where
  pool : Pool
  funcs : List (String × Func)
  host : String → List Tree → Option Tree

/-- A program with the functions that come with the machine, and no others. -/
abbrev Program.standard (pool : Pool) (funcs : List (String × Func)) : Program :=
  ⟨pool, funcs, builtin? pool⟩

/-- A function under way. -/
structure Frame where
  func : Func
  block : Block
  code : List Instr
  vars : Var → Option Tree

/-- The frames of a run: the one on top, and its callers, each with the
variable that it waits for. -/
structure Config where
  top : Frame
  callers : List (Frame × Var)

namespace Frame

/-- The trees of variables. -/
def getAll (fr : Frame) (vs : List Var) : Option (List Tree) := vs.mapM fr.vars

/-- The frame with a variable assigned. -/
def assign (fr : Frame) (v : Var) (t : Tree) : Frame :=
  { fr with vars := Function.update fr.vars v (some t) }

/-- The frame with variables assigned; there must be a tree for each. -/
def assignAll (fr : Frame) : List Var → List Tree → Option Frame
  | [], _ => some fr
  | _ :: _, [] => none
  | v :: vs, t :: ts => (fr.assign v t).assignAll vs ts

/-- The frame at the start of a block. -/
def goTo (fr : Frame) (t : Target) : Option Frame :=
  (t.bind fr.func.block?).map fun b => { fr with block := b, code := b.code }

/-- The trees of variables are those of each. -/
theorem getAll_eq_some {fr : Frame} : ∀ {vs : List Var} {ts : List Tree},
    fr.getAll vs = some ts ↔ List.Forall₂ (fun v t => fr.vars v = some t) vs ts := by
  intro vs
  induction vs with
  | nil => simp [getAll, eq_comm]
  | cons v vs ih =>
    intro ts
    rw [getAll, List.mapM_cons, List.forall₂_cons_left_iff, Option.bind_eq_bind,
      Option.bind_eq_some_iff]
    constructor
    · rintro ⟨t, ht, h⟩
      obtain ⟨us, hus, h⟩ := Option.bind_eq_some_iff.1 h
      exact ⟨t, us, ht, ih.1 hus, (Option.some.inj h).symm⟩
    · rintro ⟨t, us, ht, hus, rfl⟩
      exact ⟨t, ht, Option.bind_eq_some_iff.2 ⟨us, ih.2 hus, rfl⟩⟩

end Frame

/-- What a call leads to at once: a result, or a new frame. -/
inductive Entered where
  | result (t : Tree)
  | frame (fr : Frame)

/-- Starts a function with arguments. -/
def startFrame (f : Func) (args : List Tree) : Option Frame := do
  let fr : Frame := ⟨f, default, [], fun _ => none⟩
  let fr ← fr.assignAll (f.params.map (·.var)) args
  fr.goTo (some f.entry)

/-- Calls a function by name. -/
def enter (P : Program) (name : String) (args : List Tree) : Option Entered :=
  match P.funcs.lookup name with
  | none => (P.host name args).map .result
  | some f =>
    if args.length = f.params.length then (startFrame f args).map .frame else none

-- ======== steps

/-- Goes on after a call has been started. -/
def continueWith (c : Config) (fr : Frame) (dst : Var) : Entered → Config
  | .result t => { c with top := fr.assign dst t }
  | .frame callee => ⟨callee, (fr, dst) :: c.callers⟩

/-- Executes an instruction. `fr` is the frame on top, behind it. -/
def exec (P : Program) (c : Config) (fr : Frame) (x : Instr) : Option Config :=
  let on (dst : Var) (t : Tree) : Config := { c with top := fr.assign dst t }
  match x with
  | .lit dst value => some (on dst (literal P.pool value))
  | .move dst src => (fr.vars src).map (on dst)
  | .prim dst op args => do return on dst (← prim P.pool op (← fr.getAll args))
  | .call dst func args _ => do
    return continueWith c fr dst (← enter P func (← fr.getAll args))
  | .callClosure dst callee args => do
    let t ← fr.vars callee
    let args ← fr.getAll args
    match t.label? with
    | some (.object _ _ _ func n) =>
      return continueWith c fr dst (← enter P func (t.children n ++ args))
    | _ => none
  | .closure dst func captures => do
    return on dst (closure P.pool (fr.func.typeOf dst) func (← fr.getAll captures))
  | .construct dst type variant args => do
    return on dst (← construct P.pool type variant (← fr.getAll args))
  | .project dst src variant field => do
    return on dst (← project (← fr.vars src) variant field)
  | .tag dst src => do return on dst (← tagOf (← fr.vars src))
  | .inc _ => some { c with top := fr }
  | .dec _ => some { c with top := fr }
  | _ => none

/-- What a step leads to: more to do, or a result. -/
inductive Progress where
  | running (c : Config)
  | finished (t : Tree)

/-- Hands a result to the caller of the frame on top. -/
def returnTree (callers : List (Frame × Var)) (t : Tree) : Progress :=
  match callers with
  | [] => .finished t
  | (fr, dst) :: rest => .running ⟨fr.assign dst t, rest⟩

/-- Executes the terminator of the frame on top. -/
def execTerm (c : Config) : Option Progress :=
  let fr := c.top
  let move (t : Target) : Option Progress :=
    (fr.goTo t).map fun next => .running { c with top := next }
  match fr.block.term with
  | some (.ret v) => (fr.vars v).map (returnTree c.callers)
  | some (.jump target args) => do
    let ts ← fr.getAll args
    let next ← fr.goTo target
    return .running { c with top := ← next.assignAll next.block.params ts }
  | some (.branch cond thenTo elseTo) => do
    let t ← fr.vars cond
    move (if toInt t ≠ 0 then thenTo else elseTo)
  | some (.switch v cases default) => do
    let t ← fr.vars v
    move (switchTarget (toInt t) cases default)
  | _ => none

/-- One step. -/
def step (P : Program) (c : Config) : Option Progress :=
  match c.top.code with
  | [] => execTerm c
  | x :: rest => (exec P c { c.top with code := rest } x).map .running

/-- Steps until there is a result, at most so many. -/
def runFor (P : Program) : Nat → Config → Option Tree
  | 0, _ => none
  | steps + 1, c =>
    match step P c with
    | some (.running c) => runFor P steps c
    | some (.finished t) => some t
    | none => none

/-- Calls a function, for at most so many steps. -/
def callFor (P : Program) (steps : Nat) (name : String) (args : List Tree) :
    Option Tree :=
  match enter P name args with
  | some (.result t) => some t
  | some (.frame fr) => runFor P steps ⟨fr, []⟩
  | none => none

/-- A call comes to an end with a result. -/
def Evaluates (P : Program) (name : String) (args : List Tree) (t : Tree) : Prop :=
  ∃ steps, callFor P steps name args = some t

end RefCount.Plain
