/-
The machine. A frame is a function under way: the block it is in, the code
left of it, and the values of its variables. A call puts a new frame on top of
its caller's, which waits for the result; a return hands the result back. An
error runs through all frames, and each adds where it was.
-/
import RefCount.Ir.Operands
import RefCount.Machine.Prim
import RefCount.Machine.Release

namespace RefCount.Machine

open Ir

-- ======== frames

/-- A function under way. -/
structure Frame where
  func : Func
  block : Block
  code : List Instr
  /-- The values of the variables that have been assigned. -/
  vars : Array (Option Value)
  deriving Inhabited

/-- A call of a closure: its address, the arguments beside the captured
values, and the modes of its function. -/
structure Indirect where
  closure : Address
  args : List Value
  modes : List Mode
  deriving Inhabited

/-- What a caller waits for: a result for a variable, and the end of the call
of a closure. -/
structure Await where
  dst : Var
  indirect : Option Indirect
  deriving Inhabited

/-- The frames of a run: the one on top, and its callers. -/
structure Config where
  top : Frame
  callers : List (Frame × Await)
  deriving Inhabited

namespace Frame

def get (fr : Frame) (v : Var) : Value := ((fr.vars[v]?).join).getD .unit

/-- The values of variables. -/
def getAll (fr : Frame) (vs : List Var) : List Value := vs.map fr.get

/-- Whether a variable has been assigned. -/
def isSet (fr : Frame) (v : Var) : Bool := ((fr.vars[v]?).join).isSome

/-- Variables are read only once they are assigned. -/
def check (fr : Frame) (vs : List Var) : Run Unit :=
  match vs.find? (!fr.isSet ·) with
  | some v => throw (.undefined v)
  | none => return ()

/-- The frame with a variable assigned. -/
def set (fr : Frame) (v : Var) (x : Value) : Run Frame :=
  if v < fr.vars.size then return { fr with vars := fr.vars.setIfInBounds v (some x) }
  else throw (.fault .variable)

/-- The frame with variables assigned; there must be a value for each. -/
def setAll (fr : Frame) : List Var → List Value → Run Frame
  | [], _ => return fr
  | _ :: _, [] => throw (.fault .argument)
  | v :: vs, x :: xs => do (← fr.set v x).setAll vs xs

/-- The frame at the start of a block. -/
def goTo (fr : Frame) (t : Target) : Run Frame :=
  match t.bind fr.func.block? with
  | some b => return { fr with block := b, code := b.code }
  | none => throw (.fault .block)

end Frame

-- ======== simple instructions

def literalValue : Literal → Run Value
  | .unit => return .unit
  | .int n => return .int n
  | .bool b => return .ofBool b
  | .char c => return .int (Int64.ofInt c.toInt)
  | .float x => return .float x
  | .str s => newStr s

def construct (env : Env) (t : TypeId) (variant : Int) (args : List Value) : Run Value :=
  match env.pool.shape? t with
  | none => throw (.fault .type)
  | some shape =>
    if shape.kind = .tuple then return .tuple args
    else if env.pool.isBoxed t then newObject t variant args
    else return .int (Int64.ofInt variant)

/-- The element at an index that is known to be below the length. -/
def elementAt (xs : List Value) (i : Int) : Run Value :=
  match (if i < 0 then none else xs[i.toNat]?) with
  | some x => return x
  | none => throw (.fault .index)

def project (v : Value) (variant field : Int) : Run Value :=
  match v with
  | .tuple elems =>
    if elems.length ≤ field then throw (.tupleField field elems.length)
    else elementAt elems field
  | .ref p => do
    let o ← objectAt p
    if o.variant ≠ variant || o.fields.length ≤ field then
      throw (.projectVariant variant field o.variant)
    else elementAt o.fields field
  | v => throw (.projectKind v.kind)

def tagOf : Value → Run Value
  | .int n => return .int n
  | .ref p => return .int (Int64.ofInt (← objectAt p).variant)
  | v => throw (.tagKind v.kind)

def updateObject (p : Address) (g : Object → Object) : Run Unit :=
  modifyHeap (·.modifyObject p g)

/-- Releases a value, and gives it back as a token if it was the last
reference: then what it held is released, and its memory stays. -/
def reset (env : Env) (v : Value) : Run Value := do
  let n := (← cellAt v.address).count
  tally fun s => { s with resets := s.resets + 1 }
  if n = 1 then
    releaseAll env (← objectAt v.address).fields
    updateObject v.address fun o => { o with fields := [] }
    return v
  else
    release env v
    return .unit

/-- Constructs in the memory of a token, or in new memory without one. -/
def reuse (env : Env) (token : Value) (t : TypeId) (variant : Int) (args : List Value) :
    Run Value := do
  match token with
  | .ref p =>
    let _ ← objectAt p
    updateObject p fun o => { o with type := t, variant := variant, fields := args }
    tally fun s => { s with reuses := s.reuses + 1 }
    return token
  | _ => construct env t variant args

/-- The list with an element set; it is made longer if it is too short. -/
def setField (xs : List Value) (i : Nat) (x : Value) : List Value :=
  (xs ++ List.replicate (i + 1 - xs.length) Value.unit).set i x

/-- Sets a field of an object. -/
def storeField (v : Value) (field : Int) (x : Value) : Run Unit := do
  let p := v.address
  let _ ← objectAt p
  if field < 0 then throw (.fault .index)
  updateObject p fun o => { o with fields := setField o.fields field.toNat x }
  tally fun s => { s with sets := s.sets + 1 }

/-- The list cut off or made longer to a length. -/
def resize (xs : List Value) (n : Nat) : List Value :=
  (xs ++ List.replicate (n - xs.length) Value.unit).take n

/-- Sets the variant of an object, which gets as many fields as the variant
has. -/
def storeTag (env : Env) (v : Value) (variant : Int) : Run Unit := do
  let p := v.address
  let o ← objectAt p
  let n := ((env.pool.fields o.type variant).toOption.getD []).length
  updateObject p fun o => { o with variant := variant, fields := resize o.fields n }
  tally fun s => { s with setTags := s.setTags + 1 }

-- ======== calls

def firstArg : List Value → Run Value
  | a :: _ => return a
  | [] => throw (.fault .argument)

def printLine (env : Env) (line : Bytes) : Run Unit :=
  if env.hasOutput then modify fun w => { w with lines := line :: w.lines } else return ()

/-- The text of an integer. -/
def intBytes (n : Int64) : Bytes := Bytes.ofString (toString n.toInt)

/-- The functions of the host, by name. -/
def builtin? (env : Env) (name : String) : Option (List Value → Run Value) :=
  match name with
  | "print" => some fun args => do
    printLine env (← objectAt (← firstArg args).address).str
    return .unit
  | "print_int" => some fun args => do
    if env.hasOutput then printLine env (intBytes (← firstArg args).toInt)
    return .unit
  | "int_to_str" => some fun args => do newStr (intBytes (← firstArg args).toInt)
  | "drop" => some fun _ => return .unit
  | "keep" => some fun args => do
    let a ← firstArg args
    retain a
    return a
  | _ => none

/-- Calls a function of the host. The arguments that it does not borrow are
released afterwards. -/
def callHost (env : Env) (name : String) (host : List Value → Run Value) (args : List Value) :
    Run Value :=
  inContext (.inExtern name) do
    let result ← host args
    let modes := (env.sigs.find? name).getD []
    args.zipIdx.forM fun (a, i) =>
      if modes[i]? = some .borrowed then return ()
      else inContext (.inReleaseArg i) (release env a)
    return result

/-- What a call leads to at once: a result, or a new frame. -/
inductive Entered where
  | result (v : Value)
  | frame (fr : Frame)

/-- Starts a function of the program with arguments. -/
def startFrame (f : Func) (args : List Value) : Run Frame := do
  let fr : Frame := ⟨f, default, [], Array.replicate f.types.size none⟩
  let fr ← fr.setAll (f.params.map (·.var)) args
  fr.goTo (some f.entry)

/-- Calls a function by name below a number of frames. -/
def enter (env : Env) (depth : Nat) (name : String) (args : List Value) : Run Entered := do
  tally fun s => { s with calls := s.calls + 1 }
  match env.funcs.lookup name, builtin? env name with
  | none, some host => return .result (← callHost env name host args)
  | none, none => throw (.noFunc name)
  | some f, _ =>
    if args.length ≠ f.params.length then throw (.arity name args.length f.params.length)
    else if env.maxDepth ≤ depth then throw (.tooDeep name)
    else return .frame (← startFrame f args)

/-- Takes references to the captured values that a function takes over. -/
def retainCaptures (modes : List Mode) (captures : List Value) : Run Unit :=
  captures.zipIdx.forM fun (v, i) =>
    if modes[i]? = some .borrowed then return () else inContext (.inCapture i) (retain v)

/-- Releases the arguments of the call of a closure that its function has only
borrowed: a closure is called with references of its own. -/
def releaseIndirect (env : Env) (c : Indirect) : Run Unit :=
  c.args.zipIdx.forM fun (a, i) => do
    let captured := (((← getHeap).cell? c.closure).map (·.object.fields.length)).getD 0
    if c.modes[captured + i]? = some .borrowed then release env a else return ()

/-- Hands a result to a frame that waits for it. -/
def deliver (env : Env) (fr : Frame) (w : Await) (v : Value) : Run Frame := do
  match w.indirect with
  | none => fr.set w.dst v
  | some c =>
    releaseIndirect env c
    fr.set w.dst v

/-- Goes on after a call has been started. -/
def continueWith (env : Env) (c : Config) (fr : Frame) (w : Await) : Entered → Run Config
  | .result v => return { c with top := ← deliver env fr w v }
  | .frame callee => return ⟨callee, (fr, w) :: c.callers⟩

def callFrom (env : Env) (c : Config) (fr : Frame) (dst : Var) (name : String)
    (args : List Value) : Run Config := do
  continueWith env c fr ⟨dst, none⟩ (← enter env (c.callers.length + 1) name args)

def callClosureFrom (env : Env) (c : Config) (fr : Frame) (dst : Var) (closure : Value)
    (args : List Value) : Run Config := do
  let p := closure.address
  let o ← inContext .inClosure (objectAt p)
  let modes := (env.sigs.find? o.func).getD []
  retainCaptures modes o.fields
  let entered ← enter env (c.callers.length + 1) o.func (o.fields ++ args)
  continueWith env c fr ⟨dst, some ⟨p, args, modes⟩⟩ entered

-- ======== steps

/-- An instruction that assigns a variable needs one to assign. -/
def checkDef (fr : Frame) (x : Instr) : Run Unit :=
  match x.def? with
  | some v => if v < fr.vars.size then return () else throw (.fault .variable)
  | none => return ()

/-- Executes an instruction. `fr` is the frame on top, behind it. -/
def exec (env : Env) (c : Config) (fr : Frame) (x : Instr) : Run Config := do
  let on (dst : Var) (v : Value) : Run Config := return { c with top := ← fr.set dst v }
  let stay : Config := { c with top := fr }
  match x with
  | .lit dst value => on dst (← literalValue value)
  | .move dst src => on dst (fr.get src)
  | .prim dst op args => on dst (← prim op (fr.getAll args))
  | .call dst func args _ => callFrom env c fr dst func (fr.getAll args)
  | .callClosure dst closure args =>
    callClosureFrom env c fr dst (fr.get closure) (fr.getAll args)
  | .closure dst func captures =>
    on dst (← newClosure (fr.func.typeOf dst) func (fr.getAll captures))
  | .construct dst type variant args => on dst (← construct env type variant (fr.getAll args))
  | .project dst src variant field => on dst (← project (fr.get src) variant field)
  | .tag dst src => on dst (← tagOf (fr.get src))
  | .inc v =>
    retain (fr.get v)
    return stay
  | .dec v =>
    release env (fr.get v)
    return stay
  | .reset token v => on token (← reset env (fr.get v))
  | .reuse dst token type variant args =>
    on dst (← reuse env (fr.get token) type variant (fr.getAll args))
  | .isShared dst v =>
    let n := (← cellAt (fr.get v).address).count
    on dst (.ofBool (1 < n))
  | .set v field value =>
    storeField (fr.get v) field (fr.get value)
    return stay
  | .setTag v variant =>
    storeTag env (fr.get v) variant
    return stay

/-- Where a switch leads. -/
def switchTarget (value : Int64) (cases : List Case) (default : Target) : Target :=
  match cases.find? (·.value = value) with
  | some c => c.target
  | none => default

/-- What a step leads to: more to do, or a result. -/
inductive Progress where
  | running (c : Config)
  | finished (v : Value)

def Frame.place (fr : Frame) : RunError → RunError := .inBlock fr.func.name fr.block.id

/-- The error of the frame on top in its place and in those of all callers. -/
def Config.place (c : Config) (e : RunError) : RunError :=
  c.callers.foldl (fun e (fr, _) => fr.place e) (c.top.place e)

/-- Hands a result to the caller of the frame on top. -/
def returnValue (env : Env) (callers : List (Frame × Await)) (v : Value) : Run Progress := do
  match callers with
  | [] => return .finished v
  | (fr, w) :: rest =>
    let c : Config := ⟨fr, rest⟩
    return .running { c with top := ← inContext c.place (deliver env fr w v) }

/-- Executes the terminator of the frame on top. -/
def execTerm (env : Env) (c : Config) : Run Progress := do
  let fr := c.top
  let move (t : Target) : Run Progress := return .running { c with top := ← fr.goTo t }
  inContext (fun e => c.place (.inTerminator e)) (fr.check fr.block.termUses)
  match fr.block.term with
  | none => throw (.fault .terminator)
  | some (.ret v) => returnValue env c.callers (fr.get v)
  | some (.jump target args) =>
    let next ← fr.goTo target
    return .running { c with top := ← next.setAll next.block.params (fr.getAll args) }
  | some (.branch cond thenTo elseTo) => move (if (fr.get cond).toInt ≠ 0 then thenTo else elseTo)
  | some (.switch v cases default) =>
    let n := (fr.get v).toInt
    match switchTarget n cases default with
    | none => throw (c.place (.switchOn n))
    | some b => move (some b)
  | some .unreachable => throw (c.place .unreachable)

/-- Executes an instruction of the frame on top; `rest` is the code behind
it. -/
def execNext (env : Env) (c : Config) (x : Instr) (rest : List Instr) : Run Progress := do
  tally fun s => { s with steps := s.steps + 1 }
  inContext c.place do
    c.top.check x.uses
    checkDef c.top x
    return .running (← exec env c { c.top with code := rest } x)

def step (env : Env) (c : Config) : Run Progress :=
  match c.top.code with
  | [] => execTerm env c
  | x :: rest => execNext env c x rest

/-- Steps until there is a result or an error, at most so many. -/
def runFor (env : Env) : Nat → Config → World → Except RunError Value × World
  | 0, _, w => (.error (.fault .limit), w)
  | steps + 1, c, w =>
    match (step env c).run.run w with
    | (.ok (.running c), w) => runFor env steps c w
    | (.ok (.finished v), w) => (.ok v, w)
    | (.error e, w) => (.error e, w)

/-- Calls a function, for at most so many steps. -/
def callFor (env : Env) (steps : Nat) (name : String) (args : List Value) : Run Value := do
  match ← enter env 0 name args with
  | .result v => return v
  | .frame fr => ExceptT.mk (StateT.mk (runFor env steps ⟨fr, []⟩))

/-- More steps than any run takes that comes to an end in practice. -/
def stepLimit : Nat := Nat.pow 2 62

/-- Calls a function. Arguments are passed according to the modes of its
parameters: owned ones are consumed, borrowed ones stay with the caller. -/
def call (env : Env) (name : String) (args : List Value) : Run Value :=
  callFor env stepLimit name args

end RefCount.Machine
