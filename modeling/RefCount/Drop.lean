/-
Drop descriptors: which fields to release when an object of a type is freed.
-/
import RefCount.Ir.Basic
import RefCount.Types.Class
import RefCount.Types.Walk
import RefCount.Fault

namespace RefCount.Drop

open Ir

/-- A field to release, and its type. -/
structure DropField where
  index : Nat
  type : TypeId
  deriving DecidableEq, Repr, Inhabited

/-- What to release. -/
inductive Layout where
  | trivial
  | fields (fields : List DropField)
  /-- Fields by variant. -/
  | enum (variants : List (List DropField))
  | list (elem : TypeId)
  /-- Captured values. -/
  | closure (fields : List DropField)
  deriving DecidableEq, Repr, Inhabited

def Layout.kindText : Layout → String
  | trivial => "trivial"
  | fields _ => "fields"
  | enum _ => "enum"
  | list _ => "list"
  | closure _ => "closure"

structure Descriptor where
  type : TypeId
  layout : Layout
  deriving DecidableEq, Repr, Inhabited

namespace Descriptor

def release (d : Descriptor) (variant : Int) : List DropField :=
  match d.layout with
  | .fields fs => fs
  | .closure fs => fs
  | .enum vs => if variant < 0 then [] else vs.getD variant.toNat []
  | _ => []

/-- The fields among types that hold references. -/
def countedFields (cls : Classes) (types : List TypeId) : List DropField :=
  types.zipIdx.filterMap fun (t, i) => if cls.needsCount t then some ⟨i, t⟩ else none

/-- The layout of fields; without any there is nothing to do. -/
def fieldsLayout (fs : List DropField) : Layout := if fs.isEmpty then .trivial else .fields fs

/-- The layout of a shape of type, whose own type is given. -/
def layoutOf (pool : Pool) (cls : Classes) (u : TypeId) (shape : TypeDef) : Layout :=
  let fieldsOf (i : Nat) : List DropField :=
    countedFields cls ((pool.fields u i).toOption.getD [])
  match shape.kind with
  | .list => if cls.needsCount shape.elem then .list shape.elem else .trivial
  | .tuple => fieldsLayout (countedFields cls shape.params)
  | .record => fieldsLayout (fieldsOf 0)
  | .enum =>
    let variants := (List.range shape.variants.length).map fieldsOf
    if variants.any (!·.isEmpty) then .enum variants else .trivial
  | _ => .trivial

/-- The descriptor of a type; only counted types have one. -/
def ofType? (pool : Pool) (cls : Classes) (t : TypeId) : Option Descriptor :=
  if cls.needsCount t then
    match pool.shape? t with
    | none => some ⟨t, .trivial⟩
    | some shape => some ⟨t, layoutOf pool cls (pool.underlying t) shape⟩
  else none

/-- The descriptor of the environment of a closure with captured values. -/
def ofCaptures (cls : Classes) (t : TypeId) (captures : List TypeId) : Descriptor :=
  let fs := countedFields cls captures
  ⟨t, if fs.isEmpty then .trivial else .closure fs⟩

end Descriptor

/-- Descriptors of the types that functions release, and of the environments
of their closures by function. -/
structure Table where
  types : List (TypeId × Descriptor)
  envs : List (String × Descriptor)
  deriving Repr, Inhabited

namespace Table

/-- The types of variables, which must exist. -/
def typesOf (f : Func) (vs : List Var) : Except Fault (List TypeId) :=
  vs.mapM fun v =>
    match f.type? v with
    | some t => .ok t
    | none => .error .variable

def addInstr (pool : Pool) (cls : Classes) (f : Func) (tab : Table) (x : Instr) :
    Except Fault Table := do
  match x with
  | .dec v =>
    let types ← typesOf f [v]
    let t := types.headD .none
    if (tab.types.lookup t).isSome then return tab
    else
      match Descriptor.ofType? pool cls t with
      | some d => return { tab with types := tab.types ++ [(t, d)] }
      | none => return tab
  | .closure dst func captures =>
    if (tab.envs.lookup func).isSome then return tab
    else
      let captured ← typesOf f captures
      let types ← typesOf f [dst]
      let d := Descriptor.ofCaptures cls (types.headD .none) captured
      return { tab with envs := tab.envs ++ [(func, d)] }
  | _ => return tab

/-- The descriptors that functions need. The first closure of a function
decides. -/
def collect (pool : Pool) (cls : Classes) (fs : List Func) : Except Fault Table :=
  fs.foldlM (fun tab f => f.instrs.foldlM (addInstr pool cls f) tab) ⟨[], []⟩

/-- The descriptors of types in order of the types. -/
def sortedTypes (tab : Table) : List (TypeId × Descriptor) :=
  tab.types.mergeSort fun a b => a.1 ≤ b.1

/-- The descriptors of environments in order of the names. -/
def sortedEnvs (tab : Table) : List (String × Descriptor) :=
  tab.envs.mergeSort fun a b => a.1 ≤ b.1

end Table

end RefCount.Drop
