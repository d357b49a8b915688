/-
Reading a program. Types may mention types that are defined later, and bodies
functions that come later, so the forms are gone through four times: names of
types, definitions of types, signatures of functions, bodies of functions.
-/
import RefCount.Program.Body

namespace RefCount

open Sexp (Node Source)
open ReadM

-- ======== types

/-- The kind of type that the head of a form declares. -/
def declaredKind? : String → Option Kind
  | "record" => some .record
  | "enum" => some .enum
  | "alias" => some .synonym
  | _ => none

/-- The head and the items of a top level form. -/
def topForm (x : Node) : ReadM (String × List Node) :=
  match x with
  | .list _ (.ident s head :: args) => pure (head, .ident s head :: args)
  | x => fail x .formExpected

/-- Declares the types of a program, in order. -/
def declareTypes : List Node → ReadM (List (Node × TypeId))
  | [] => return []
  | x :: xs => do
    let (head, items) ← topForm x
    match declaredKind? head with
    | none => declareTypes xs
    | some k =>
      let name ← nameAt x items 1
      let id ← change x (·.declare name k)
      return (x, id) :: (← declareTypes xs)

/-- The fields that nodes write. -/
def readFieldList : List Node → ReadM (List Field)
  | [] => return []
  | .list s items :: rest =>
    match items with
    | [.ident _ name, t] => do
      let type ← readType t
      return ⟨name, type⟩ :: (← readFieldList rest)
    | [n, _] => fail n .nameExpected
    | _ => fail (.list s items) (.shape "field" "(name Type)")
  | x :: _ => fail x (.shape "field" "(name Type)")

/-- The variants that nodes write. -/
def readVariants : List Node → ReadM (List Variant)
  | [] => return []
  | .list s items :: rest => do
    let name ← nameAt (.list s items) items 0
    let fields ← readFieldList (items.drop 1)
    return ⟨name, fields⟩ :: (← readVariants rest)
  | x :: _ => fail x .variantExpected

def defineType (x : Node) (id : TypeId) : ReadM Unit := do
  let (head, items) ← topForm x
  match declaredKind? head with
  | some .record =>
    let fields ← readFieldList (items.drop 2)
    change x fun p => (p.defineRecord id fields).map ((), ·)
  | some .enum =>
    let variants ← readVariants (items.drop 2)
    change x fun p => (p.defineEnum id variants).map ((), ·)
  | some .synonym =>
    match items with
    | [_, _, t] =>
      let target ← readType t
      change x fun p => (p.resolve id target).map ((), ·)
    | _ => fail x (.shape "alias" "(alias Name Type)")
  | _ => pure ()

-- ======== signatures

def readMode : Node → ReadM Mode
  | .ident s name =>
    if name = "borrowed" then pure .borrowed
    else if name = "owned" then pure .owned
    else fail (.ident s name) .modeExpected
  | x => fail x .modeExpected

/-- The parameters of a host function. -/
def readExternParams : List Node → ReadM (List (TypeId × Mode))
  | [] => return []
  | .list s items :: rest =>
    match items with
    | [_, t] => do
      let type ← readType t
      return (type, .owned) :: (← readExternParams rest)
    | [_, t, m] => do
      let type ← readType t
      let mode ← readMode m
      return (type, mode) :: (← readExternParams rest)
    | _ => fail (.list s items) (.shape "param" "(name Type [borrowed])")
  | x :: _ => fail x (.shape "param" "(name Type [borrowed])")

def readParams : List Node → ReadM (List (String × TypeId))
  | [] => return []
  | .list s items :: rest =>
    match items with
    | [.ident _ name, t] => do
      let type ← readType t
      return (name, type) :: (← readParams rest)
    | [n, _] => fail n .nameExpected
    | _ => fail (.list s items) (.shape "param" "(name Type)")
  | x :: _ => fail x (.shape "param" "(name Type)")

/-- A function whose body is still to be read. -/
structure Header where
  name : String
  params : List (String × TypeId)
  result : TypeId
  body : Node
  deriving Inhabited

/-- The signatures of a program's functions. -/
structure Headers where
  types : List (String × FuncType)
  externs : List Extern
  funcs : List Header
  deriving Inhabited

/-- The signature of a host function. -/
def readExtern (x : Node) (items : List Node) : ReadM Extern :=
  match items with
  | [_, n, ps, r] => do
    let name ← nameAt x [n] 0
    match ps with
    | .list _ ps =>
      let params ← readExternParams ps
      let result ← readType r
      return ⟨name, params.map (·.1), params.map (·.2), result⟩
    | ps => fail ps .paramsExpected
  | _ => fail x (.shape "extern" "(extern name (params...) Result)")

/-- The signature of a function. -/
def readHeader (x : Node) (items : List Node) : ReadM Header :=
  match items with
  | [_, n, ps, r, body] => do
    let name ← nameAt x [n] 0
    match ps with
    | .list _ ps =>
      let params ← readParams ps
      let result ← readType r
      return ⟨name, params, result, body⟩
    | ps => fail ps .paramsExpected
  | _ => fail x (.shape "func" "(func name (params...) Result body)")

/-- The function types with one more, whose name must be new. -/
def addFunc (x : Node) (types : List (String × FuncType)) (name : String) (type : FuncType) :
    ReadM (List (String × FuncType)) :=
  match types.lookup name with
  | some _ => fail x (.redefined name)
  | none => pure ((name, type) :: types)

/-- The signatures of all functions, in order. -/
def readHeaders (found : Headers) : List Node → ReadM Headers
  | [] => return { found with externs := found.externs.reverse, funcs := found.funcs.reverse }
  | x :: xs => do
    let (head, items) ← topForm x
    if head = "extern" then
      let e ← readExtern x items
      let types ← addFunc x found.types e.name ⟨e.params, e.result⟩
      readHeaders { found with types, externs := e :: found.externs } xs
    else if head = "func" then
      let h ← readHeader x items
      let types ← addFunc x found.types h.name ⟨h.params.map (·.2), h.result⟩
      readHeaders { found with types, funcs := h :: found.funcs } xs
    else if (declaredKind? head).isSome then readHeaders found xs
    else fail x (.topLevel head)

-- ======== bodies

/-- The body of a function, which has the type of the function's result or no
value at all. -/
def readBody (types : List (String × FuncType)) (h : Header) : ReadM Definition := do
  let env : ReadEnv := ⟨types, h.params.reverse, []⟩
  let body ← readExpr env h.body
  if body.type ≠ h.result ∧ body.type ≠ .never then
    fail h.body (.bodyType (← typeName body.type) (← typeName h.result))
  else return ⟨h.name, h.params, h.result, body⟩

namespace Program

/-- The types and signatures of a program's forms. -/
def readOutline (forms : List Node) : ReadM Headers := do
  let declared ← declareTypes forms
  declared.forM fun (x, id) => defineType x id
  readHeaders ⟨[], [], []⟩ forms

/-- The bodies of a program's functions, in order, up to the first that is
wrong, which is told with its function. -/
def readBodies (types : List (String × FuncType)) (pool : Pool) :
    List Header → Except (String × FormFailure) (List Definition × Pool)
  | [] => .ok ([], pool)
  | h :: hs =>
    match (readBody types h).run pool with
    | .error f => .error (h.name, f)
    | .ok (d, pool) => do
      let (ds, pool) ← readBodies types pool hs
      return (d :: ds, pool)

def read (source : Source) : Except ReadError Program :=
  match source.parse .forms with
  | .error (place, e) => .error (.parse place e)
  | .ok forms =>
    match (readOutline forms).run Pool.initial with
    | .error f => .error (.form none (source.place f.pos) f.error)
    | .ok (headers, pool) =>
      match readBodies headers.types pool headers.funcs with
      | .error (name, f) => .error (.form (some name) (source.place f.pos) f.error)
      | .ok (funcs, pool) => .ok ⟨pool, headers.externs, funcs⟩

end Program

end RefCount
