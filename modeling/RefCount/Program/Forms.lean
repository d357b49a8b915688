/-
Reading types and patterns from forms. Structural types are interned in the
pool as they are met. A pattern is read against the type of what it matches:
an identifier is a variant without fields if the type has one of that name,
and otherwise binds.
-/
import RefCount.Program.Basic
import RefCount.Program.Error
import RefCount.Types.Walk

namespace RefCount

open Sexp (Node)

/-- Reading with a pool that grows, up to the first error. -/
abbrev ReadM := StateT Pool (Except FormFailure)

namespace ReadM

/-- An error about a node. -/
def fail {α : Type} (x : Node) (e : FormError) : ReadM α :=
  throw ⟨x.span.start, e⟩

def nameAt (list : Node) (items : List Node) (i : Nat) : ReadM String :=
  match items[i]? with
  | none => fail list .nameExpected
  | some (.ident _ n) => pure n
  | some x => fail x .nameExpected

/-- The number of an interned type. -/
def intern (make : Pool → TypeId × Pool) : ReadM TypeId := modifyGet make

/-- A change of the pool that may be refused, about a node. -/
def change {α : Type} (x : Node) (f : Pool → Except PoolError (α × Pool)) : ReadM α := do
  match f (← get) with
  | .ok (a, p) => set p; return a
  | .error e => fail x (.pool e)

def typeName (t : TypeId) : ReadM String := return (← get).name t

/-- What a type is behind its aliases. A type without an end to its aliases
is like a type variable. -/
def shape (t : TypeId) : ReadM TypeDef := return ((← get).shape? t).getD (.var "")

end ReadM

open ReadM

-- ======== types

mutual

def readType : Node → ReadM TypeId
  | .ident s name => do
    match (← get).byName? name with
    | some id => return id
    | none => fail (.ident s name) (.unknownType name)
  | .list s items =>
    match items with
    | [.ident _ "list", e] => do
      let t ← readType e
      intern (·.list t)
    | .ident _ "tuple" :: es => do
      let ts ← readTypes es
      intern (·.tuple ts)
    | [.ident _ "fn", params, result] =>
      match params with
      | .list _ ps => do
        let ts ← readTypes ps
        let r ← readType result
        intern (·.fn ts r)
      | _ => fail (.list s items) .fnParamsExpected
    | [.ident _ "var", n] =>
      match n with
      | .ident _ name => intern (·.var name)
      | x => fail x .nameExpected
    | _ => fail (.list s items) .typeExpected
  | x => fail x .typeExpected

/-- The types that nodes write, in order. -/
def readTypes : List Node → ReadM (List TypeId)
  | [] => return []
  | x :: xs => do
    let t ← readType x
    return t :: (← readTypes xs)

end

-- ======== patterns

/-- The names that a pattern binds so far, the last first. -/
abbrev Bindings := List (String × TypeId)

/-- The variant without fields that an identifier names. -/
def constantVariant? (p : Pool) (t : TypeId) (name : String) : Option Nat :=
  match p.shape? t with
  | some (.enum _ _) =>
    match p.variantIndex? t name with
    | some v => if (p.fields t v).toOption.getD [] = [] then some v else none
    | none => none
  | _ => none

/-- The variant that the head of a pattern for a type names. -/
def headVariant (x : Node) (t : TypeId) (head : String) : ReadM Nat := do
  match ← shape t with
  | .tuple _ => if head = "tuple" then return 0 else fail x (.noMatch head (← typeName t))
  | .record name _ => if head = name then return 0 else fail x (.noMatch head (← typeName t))
  | .enum _ _ =>
    match (← get).variantIndex? t head with
    | some v => return v
    | none => fail x (.noVariant (← typeName t) head)
  | _ => fail x (.noMatch head (← typeName t))

mutual

/-- The pattern that a node writes for values of a type, and the names bound
by then. -/
def readPattern (t : TypeId) (binds : Bindings) : Node → ReadM (Pattern × Bindings)
  | .int _ n => return (.lit (.int n), binds)
  | .str _ s => return (.lit (.str s), binds)
  | .float s v => fail (.float s v) .patternExpected
  | .ident _ name => do
    if name = "_" then return (.wild, binds)
    else if name = "true" then return (.lit (.bool true), binds)
    else if name = "false" then return (.lit (.bool false), binds)
    else match constantVariant? (← get) t name with
      | some v => return (.variant t v [], binds)
      | none => return (.bind name, (name, t) :: binds)
  | .list s items =>
    match items with
    | .ident hs head :: args =>
      if head = "as" then
        match args with
        | [.ident _ name, p] => do
          let (p, binds) ← readPattern t ((name, t) :: binds) p
          return (.as name p, binds)
        | [n, _] => fail n .nameExpected
        | _ => fail (.list s items) (.shape "as" "(as name pattern)")
      else if head = "or" then do
        let (ps, binds) ← readAlternatives t binds args
        return (.or ps, binds)
      else if head = "range" then
        match args with
        | [.int _ low, .int _ high] => return (.range low high, binds)
        | [_, _] => fail (.list s items) .rangeBounds
        | _ => fail (.list s items) (.shape "range" "(range lo hi)")
      else do
        let x : Node := .list s (.ident hs head :: args)
        let v ← headVariant x t head
        match (← get).fields t v with
        | .error e => fail x (.pool e)
        | .ok types =>
          if types.length ≠ args.length then
            fail x (.fieldCount head args.length types.length)
          else
            let (ps, binds) ← readFields types binds args
            return (.variant t v ps, binds)
    | _ => fail (.list s items) .patternExpected

def readAlternatives (t : TypeId) (binds : Bindings) :
    List Node → ReadM (List Pattern × Bindings)
  | [] => return ([], binds)
  | x :: xs => do
    let (p, binds) ← readPattern t binds x
    let (ps, binds) ← readAlternatives t binds xs
    return (p :: ps, binds)

/-- The patterns of fields, each for the type of its field. -/
def readFields (types : List TypeId) (binds : Bindings) :
    List Node → ReadM (List Pattern × Bindings)
  | [] => return ([], binds)
  | x :: xs => do
    let (p, binds) ← readPattern (types.headD .none) binds x
    let (ps, binds) ← readFields (types.drop 1) binds xs
    return (p :: ps, binds)

end

end RefCount
