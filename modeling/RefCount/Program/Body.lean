/-
Reading expressions from forms. The environment holds the signatures of all
functions, the types of the names in scope, the innermost first, and the
number of variables of each enclosing loop.
-/
import RefCount.Program.Forms

namespace RefCount

open Sexp (Node)
open ReadM

/-- The parameter types and the result type of a function. -/
structure FuncType where
  params : List TypeId
  result : TypeId
  deriving Repr, Inhabited

/-- What an expression is read in. -/
structure ReadEnv where
  funcs : List (String × FuncType)
  scope : Bindings
  loops : List Nat
  deriving Repr, Inhabited

/-- The operation that the head of a form names. -/
def primOp? : String → Option Op
  | "+" => some "add"
  | "-" => some "sub"
  | "*" => some "mul"
  | "/" => some "div"
  | "%" => some "rem"
  | "neg" => some "neg"
  | "<" => some "lt"
  | "<=" => some "le"
  | ">" => some "gt"
  | ">=" => some "ge"
  | "==" => some "eq"
  | "!=" => some "ne"
  | "and" => some "and"
  | "or" => some "or"
  | "not" => some "not"
  | "concat" => some "concat"
  | "strlen" => some "strlen"
  | _ => none

/-- The number of operands of an operation. -/
def primArity (op : Op) : Nat := if op ∈ ["neg", "not", "strlen"] then 1 else 2

/-- The type of an operation's result; arithmetic has that of its first
operand. -/
def primType (op : Op) (first : TypeId) : TypeId :=
  if op ∈ ["lt", "le", "gt", "ge", "eq", "ne", "and", "or", "not"] then .bool
  else if op = "concat" then .str
  else if op = "strlen" then .int
  else first

/-- The type of one of two results, of which the first may never come. -/
def joinTypes (a b : TypeId) : TypeId := if a = .never then b else a

/-- The index of the field that a node names, by number or by name. -/
def fieldIndexOf (p : Pool) (t : TypeId) : Node → Option Nat
  | .int _ n => if n.toInt < 0 then none else some n.toInt.toNat
  | .ident _ name => ((p.fieldIndex? t 0 name).toOption).bind id
  | _ => none

/-- The type of the field that a node names. -/
def projection (list node : Node) (t : TypeId) : ReadM (TypeId × Nat) := do
  let p ← get
  match ← shape t with
  | .record _ _ | .tuple _ =>
    match fieldIndexOf p t node with
    | some i =>
      match ((p.fields t 0).toOption.getD [])[i]? with
      | some ft => return (ft, i)
      | none => fail node (.noField (p.name t))
    | none => fail node (.noField (p.name t))
  | _ => fail list (.notProjectable (p.name t))

/-- The variant that a construction names, and whether it names one by a node
of its own. -/
def constructedVariant (list : Node) (t : TypeId) (rest : List Node) : ReadM (Nat × Bool) := do
  match ← shape t with
  | .record _ _ => return (0, false)
  | .enum _ _ =>
    match rest with
    | [] => fail list .nameExpected
    | .ident s name :: _ =>
      match (← get).variantIndex? t name with
      | some v => return (v, true)
      | none => fail (.ident s name) (.noVariant (← typeName t) name)
    | x :: _ => fail x .nameExpected
  | _ => fail list (.notConstructible (← typeName t))

/-- Checks the number of arguments of a construction. -/
def checkConstruction (list : Node) (t : TypeId) (variant count : Nat) : ReadM Unit := do
  match (← get).fields t variant with
  | .error e => fail list (.pool e)
  | .ok types =>
    if types.length ≠ count then fail list (.arity "new" count types.length) else pure ()

/-- The type of a closure over a function's first parameters. -/
def closureType (list : Node) (env : ReadEnv) (name : String) (captured : Nat) :
    ReadM FuncType :=
  match env.funcs.lookup name with
  | some f => if f.params.length < captured then fail list (.badClosure name) else pure f
  | none => fail list (.badClosure name)

/-- The guard that a node announces. -/
def checkWhen : Node → ReadM Unit
  | .ident s name => if name = "when" then pure () else fail (.ident s name) .whenExpected
  | x => fail x .whenExpected

mutual

/-- The expression that a node writes. -/
def readExpr (env : ReadEnv) : Node → ReadM Expr
  | .int _ n => return .lit .int (.int n)
  | .float _ x => return .lit .float (.float x)
  | .str _ s => return .lit .str (.str s)
  | .ident s name =>
    if name = "true" then return .lit .bool (.bool true)
    else if name = "false" then return .lit .bool (.bool false)
    else if name = "unit" then return .lit .unit .unit
    else match env.scope.lookup name with
      | some t => return .ref t name
      | none => fail (.ident s name) (.undefined name)
  | .list s items =>
    match items with
    | .ident hs head :: args =>
      let here : Node := .list s (.ident hs head :: args)
      match primOp? head with
      | some op => do
        let es ← readExprs env args
        if es.length ≠ primArity op then
          fail here (.arity op es.length (primArity op))
        else return .prim (primType op ((es.head?.map Expr.type).getD .none)) op es
      | none =>
        if head = "let" then
          match args with
          | [.ident _ name, value, body] => do
            let v ← readExpr env value
            let b ← readExpr { env with scope := (name, v.type) :: env.scope } body
            return .bind b.type name v b
          | [n, _, _] => fail n .nameExpected
          | _ => fail here (.shape "let" "(let name value body)")
        else if head = "do" then do
          let es ← readExprs env args
          match es.getLast? with
          | some e => return .seq e.type es
          | none => return .lit .unit .unit
        else if head = "apply" then
          match args with
          | [] => fail here .closureExpected
          | f :: rest => do
            let fn ← readExpr env f
            match ← shape fn.type with
            | .fn params result =>
              if params.length ≠ rest.length then
                fail here (.notApplicable (← typeName fn.type) rest.length)
              else
                let es ← readExprs env rest
                return .callClosure result fn es
            | _ => fail here (.notApplicable (← typeName fn.type) rest.length)
        else if head = "closure" then
          match args with
          | [] => fail here .nameExpected
          | .ident _ name :: rest => do
            let f ← closureType here env name rest.length
            let es ← readExprs env rest
            let t ← intern (·.fn (f.params.drop es.length) f.result)
            return .closure t name es
          | n :: _ => fail n .nameExpected
        else if head = "new" then
          match args with
          | [] => fail here .constructedExpected
          | tn :: rest => do
            let t ← readType tn
            let (variant, named) ← constructedVariant here t rest
            match rest with
            | [] =>
              checkConstruction here t variant 0
              return .construct t variant []
            | x :: rest' =>
              if named then
                checkConstruction here t variant rest'.length
                let es ← readExprs env rest'
                return .construct t variant es
              else
                checkConstruction here t variant (rest'.length + 1)
                let e ← readExpr env x
                let es ← readExprs env rest'
                return .construct t variant (e :: es)
        else if head = "tuple" then do
          let es ← readExprs env args
          let t ← intern (·.tuple (es.map Expr.type))
          return .construct t 0 es
        else if head = "get" then
          match args with
          | [of, field] => do
            let v ← readExpr env of
            let (t, i) ← projection here field v.type
            return .field t v 0 i
          | _ => fail here (.shape "get" "(get value field)")
        else if head = "if" then
          match args with
          | [c, a, b] => do
            let c' ← readExpr env c
            let a' ← readExpr env a
            let b' ← readExpr env b
            if c'.type ≠ .bool then fail c (.conditionType (← typeName c'.type))
            else return .cond (joinTypes a'.type b'.type) c' a' b'
          | _ => fail here (.shape "if" "(if cond then else)")
        else if head = "match" then
          match args with
          | v :: a :: arms => do
            let e ← readExpr env v
            let as ← readArms env e.type (a :: arms)
            let t := as.foldl (fun t arm => joinTypes t arm.body.type) .never
            return .select t e as
          | _ => fail here (.shape "match" "(match value arms...)")
        else if head = "loop" then
          match args with
          | [bindings, body] =>
            match bindings with
            | .list _ bs => do
              let inits ← readInits env bs
              let scope := inits.foldl (fun sc (n, e) => (n, e.type) :: sc) env.scope
              let b ← readExpr { env with scope, loops := inits.length :: env.loops } body
              return .loop b.type (inits.map (·.1)) (inits.map (·.2)) b
            | x => fail x .bindingsExpected
          | _ => fail here (.shape "loop" "(loop ((name init)...) body)")
        else if head = "recur" then
          match env.loops with
          | [] => fail here .recurOutside
          | n :: _ =>
            if args.length ≠ n then fail here (.arity "recur" args.length n)
            else do
              let es ← readExprs env args
              return .recur .never es
        else if head = "return" then
          match args with
          | [v] => do
            let e ← readExpr env v
            return .ret .never e
          | _ => fail here (.shape "return" "(return value)")
        else match env.funcs.lookup head with
          | none => fail here (.unknownFunction head)
          | some f =>
            if f.params.length ≠ args.length then
              fail here (.arity head args.length f.params.length)
            else do
              let es ← readExprs env args
              return .call f.result head es
    | _ => fail (.list s items) .formExpected

/-- The expressions that nodes write, in order. -/
def readExprs (env : ReadEnv) : List Node → ReadM (List Expr)
  | [] => return []
  | x :: xs => do
    let e ← readExpr env x
    return e :: (← readExprs env xs)

/-- The arms of a match on a value of a type. -/
def readArms (env : ReadEnv) (t : TypeId) : List Node → ReadM (List Arm)
  | [] => return []
  | .list s items :: rest =>
    match items with
    | [p, b] => do
      let (pattern, binds) ← readPattern t [] p
      let body ← readExpr { env with scope := binds ++ env.scope } b
      return .mk pattern none body :: (← readArms env t rest)
    | [p, w, g, b] => do
      let (pattern, binds) ← readPattern t [] p
      checkWhen w
      let env' := { env with scope := binds ++ env.scope }
      let guard ← readExpr env' g
      let body ← readExpr env' b
      return .mk pattern (some guard) body :: (← readArms env t rest)
    | _ =>
      fail (.list s items) (.shape "arm" "(pattern body) or (pattern when guard body)")
  | x :: _ => fail x (.shape "arm" "(pattern body) or (pattern when guard body)")

/-- The variables of a loop with their first values. -/
def readInits (env : ReadEnv) : List Node → ReadM (List (String × Expr))
  | [] => return []
  | .list s items :: rest =>
    match items with
    | [.ident _ name, init] => do
      let e ← readExpr env init
      return (name, e) :: (← readInits env rest)
    | [n, _] => fail n .nameExpected
    | _ => fail (.list s items) (.shape "binding" "(name init)")
  | x :: _ => fail x (.shape "binding" "(name init)")

end

end RefCount
