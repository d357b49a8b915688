/-
Lowering a program to graphs. The code of an expression is built in the
current block and leaves its value in a variable; a conditional or a match
branches and meets again in a block whose parameter is the value, unless no
branch comes back; a loop is a block that `recur` jumps to.
-/
import RefCount.Lower.Arms

namespace RefCount.Lower

open Ir

/-- A match that cannot be compiled cannot be lowered. -/
def orMatchError {α : Type} : Except Match.MatchError α → Build α
  | .ok a => return a
  | .error .missingPattern => throw .missingPattern
  | .error (.fault f) => throw (.fault f)

/-- A variable for each parameter of a loop, with the type of what it starts
with. -/
def loopParams : List Var → Build (List Var)
  | [] => return []
  | v :: vs => do
    let p ← newVar (← typeOf v)
    return p :: (← loopParams vs)

mutual

/-- The code of an expression. `header` is the block of the innermost
enclosing loop. -/
def lowerExpr (pool : Pool) (header : Option BlockId) (scope : Scope) : Expr → Build Value
  | .missing => throw .missingExpr
  | .lit t value => return some (← define t fun v => .lit v value)
  | .ref _ name =>
    match scope.lookup name with
    | some v => return some v
    | none => throw (.undefined name)
  | .bind _ name value body => do
    let some v ← lowerExpr pool header scope value | return none
    lowerExpr pool header ((name, v) :: scope) body
  | .seq _ exprs => lowerSeq pool header scope 0 exprs
  | .prim t op args => do
    let some vs ← lowerAll pool header scope args | return none
    return some (← define t fun v => .prim v op vs)
  | .call t func args => do
    let some vs ← lowerAll pool header scope args | return none
    return some (← define t fun v => .call v func vs false)
  | .callClosure t closure args => do
    let some c ← lowerExpr pool header scope closure | return none
    let some vs ← lowerAll pool header scope args | return none
    return some (← define t fun v => .callClosure v c vs)
  | .closure t func captures => do
    let some vs ← lowerAll pool header scope captures | return none
    return some (← define t fun v => .closure v func vs)
  | .construct t variant args => do
    let some vs ← lowerAll pool header scope args | return none
    return some (← define t fun v => .construct v t variant vs)
  | .field t of variant index => do
    let some src ← lowerExpr pool header scope of | return none
    return some (← define t fun v => .project v src variant index)
  | .cond t condition thenExpr elseExpr => do
    let some c ← lowerExpr pool header scope condition | return none
    let thenBlock ← newBlock
    let elseBlock ← newBlock
    finish (.branch c (some thenBlock) (some elseBlock))
    enter thenBlock
    let thenExit ← exitWith (← lowerExpr pool header scope thenExpr)
    enter elseBlock
    let elseExit ← exitWith (← lowerExpr pool header scope elseExpr)
    join (thenExit ++ elseExit) t
  | .select t scrutinee arms => do
    let some v ← lowerExpr pool header scope scrutinee | return none
    let tree ← orMatchError (Match.compile pool scrutinee.type (arms.map (·.pattern))
      (arms.map (·.guard.isSome)))
    let exits ← emitTree (lowerArms pool header arms) scope tree [([], v)]
    join exits t
  | .loop _ names inits body => do
    let some vs ← lowerAll pool header scope inits | return none
    let start ← newBlock
    finish (.jump (some start) vs)
    let params ← loopParams vs
    setParams start params
    enter start
    lowerExpr pool (some start) ((names.zip params).reverse ++ scope) body
  | .recur _ args =>
    match header with
    | none => throw .recurOutsideLoop
    | some start => do
      let some vs ← lowerAll pool header scope args | return none
      finish (.jump (some start) vs)
      return none
  | .ret _ value => do
    let some v ← lowerExpr pool header scope value | return none
    finish (.ret v)
    return none

/-- The code of expressions from left to right; none if control leaves one of
them. -/
def lowerAll (pool : Pool) (header : Option BlockId) (scope : Scope) :
    List Expr → Build (Option (List Var))
  | [] => return some []
  | e :: es => do
    let some v ← lowerExpr pool header scope e | return none
    let some vs ← lowerAll pool header scope es | return none
    return some (v :: vs)

/-- The code of expressions one after the other, of which the last gives the
value; `last` is the value so far. -/
def lowerSeq (pool : Pool) (header : Option BlockId) (scope : Scope) (last : Var) :
    List Expr → Build Value
  | [] => return some last
  | e :: es => do
    let some v ← lowerExpr pool header scope e | return none
    lowerSeq pool header scope v es

def lowerArms (pool : Pool) (header : Option BlockId) : List Arm → List ArmCode
  | [] => []
  | .mk _ none body :: arms =>
    ⟨none, fun scope => lowerExpr pool header scope body⟩ :: lowerArms pool header arms
  | .mk _ (some guard) body :: arms =>
    ⟨some fun scope => lowerExpr pool header scope guard,
      fun scope => lowerExpr pool header scope body⟩ :: lowerArms pool header arms

end

/-- Lowers the parameters and the body of a function. -/
def buildFunc (pool : Pool) (d : Definition) : Build Unit := do
  let entry ← newBlock
  enter entry
  let vars ← d.params.mapM fun (_, t) => newVar t
  let params := (vars.zip d.params).map fun (v, _, t) => Param.mk v t .owned
  modify fun s => { s with func := { s.func with params := params } }
  let scope := ((d.params.map (·.1)).zip vars).reverse
  if let some v ← lowerExpr pool none scope d.body then
    finish (.ret v)

def lowerFunc (pool : Pool) (d : Definition) : Except LowerError Func := do
  let start : Builder := ⟨⟨d.name, [], d.result, #[], 0, #[]⟩, 0⟩
  let ((), s) ← (buildFunc pool d).run start
  let f := s.func.markTailCalls
  match f.check .lowered with
  | .ok () => return f
  | .error m => throw (.malformed m)

/-- A function that cannot be lowered, and why. -/
structure LowerFailure where
  func : String
  error : LowerError
  deriving DecidableEq, Repr, Inhabited

def LowerFailure.message (e : LowerFailure) : String :=
  "lower " ++ e.func ++ ": " ++ e.error.message

def lowerAllOf (pool : Pool) (ds : List Definition) : Except LowerFailure (List Func) :=
  ds.mapM fun d => (lowerFunc pool d).mapError (⟨d.name, ·⟩)

end RefCount.Lower

/-- The functions of a program as graphs. -/
def RefCount.Program.lower (p : RefCount.Program) :
    Except RefCount.Lower.LowerFailure (List RefCount.Ir.Func) :=
  RefCount.Lower.lowerAllOf p.pool p.funcs
