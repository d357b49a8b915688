/-
The pool of types. Types are numbered in order of creation, after the built-in
ones. A structural type is interned under its written form, so that the same
form has one number; a named type is declared once and defined once.
-/
import RefCount.Types.Basic
import RefCount.Fault

namespace RefCount

/-- The types that are known, with the numbers of named types by name and of
structural types by written form. -/
structure Pool where
  types : Array TypeDef
  names : List (String × TypeId)
  forms : List (String × TypeId)
  deriving Repr, Inhabited

/-- Why the pool refuses an operation. -/
inductive PoolError where
  | unknown (id : TypeId)
  | unknownTarget (name : String) (id : TypeId)
  | notAggregate (name : String)
  | noVariant (name : String) (variant : Int)
  | undeclarable (kind : Kind) (name : String)
  | redeclared (name : String)
  | wrongKind (name : String) (actual expected : Kind)
  | alreadyDefined (name : String)
  | noVariants (name : String)
  deriving DecidableEq, Repr, Inhabited

namespace PoolError

/-- Whether the error is about a type that is not known. -/
def isUnknown : PoolError → Bool
  | unknown _ => true
  | unknownTarget _ _ => true
  | notAggregate _ => true
  | _ => false

/-- The wording of a pool error. -/
def message : PoolError → String
  | unknown id => "id " ++ toString id ++ ": unknown type"
  | unknownTarget name id => "alias " ++ name ++ ": id " ++ toString id ++ ": unknown type"
  | notAggregate name => "not an aggregate: " ++ name ++ ": unknown type"
  | noVariant name v => name ++ ": no variant " ++ toString v
  | undeclarable k name => "can't declare " ++ k.text ++ " type " ++ name
  | redeclared name => "type redeclared: " ++ name
  | wrongKind name actual expected =>
    name ++ ": is " ++ actual.text ++ ", not " ++ expected.text
  | alreadyDefined name => name ++ ": already defined"
  | noVariants name => "enum " ++ name ++ ": no variants"

end PoolError

namespace Pool

-- ======== look-up

/-- The built-in types in order of their numbers. -/
def builtins : List Builtin := [.unit, .never, .bool, .int, .float, .char, .str]

/-- The pool that holds the built-in types alone. -/
def initial : Pool where
  types := (builtins.map TypeDef.builtin).toArray
  names := builtins.zipIdx.map fun (b, i) => (b.kind.text, (i : Int))
  forms := []

def size (p : Pool) : Nat := p.types.size

/-- The type with a number, if there is one. -/
def get? (p : Pool) (id : TypeId) : Option TypeDef :=
  if id < 0 then none else p.types[id.toNat]?

/-- The type with a number, or the error that there is none. -/
def find (p : Pool) (id : TypeId) : Except PoolError TypeDef :=
  match p.get? id with
  | some t => .ok t
  | none => .error (.unknown id)

/-- The number of a named type. -/
def byName? (p : Pool) (name : String) : Option TypeId := p.names.lookup name

-- ======== written forms

/-- The written form of a type; a number without a type stands for itself.
Forms nest no deeper than there are types. -/
def nameWithin (p : Pool) : Nat → TypeId → String
  | 0, _ => ""
  | depth + 1, id =>
    match p.get? id with
    | none => "?" ++ toString id
    | some t =>
      match t with
      | .list e => "(list " ++ p.nameWithin depth e ++ ")"
      | .fn ps r =>
        "(fn (" ++ " ".intercalate (ps.map (p.nameWithin depth)) ++ ") "
          ++ p.nameWithin depth r ++ ")"
      | .tuple es => "(" ++ " ".intercalate ("tuple" :: es.map (p.nameWithin depth)) ++ ")"
      | .var n => "(var " ++ n ++ ")"
      | t => t.name

/-- The written form of a type. -/
def name (p : Pool) (id : TypeId) : String := p.nameWithin (p.size + 1) id

/-- Fields as they stand in a definition. -/
def fieldsText (p : Pool) (fs : List Field) : String :=
  String.join (fs.map fun f => " (" ++ f.name ++ " " ++ p.name f.type ++ ")")

/-- The definition of a named type; the written form of any other. -/
def definition (p : Pool) (id : TypeId) : String :=
  match p.get? id with
  | some (.record n fs) => "(record " ++ n ++ p.fieldsText (fs.getD []) ++ ")"
  | some (.enum n vs) =>
    "(enum " ++ n
      ++ String.join ((vs.getD []).map fun v => " (" ++ v.name ++ p.fieldsText v.fields ++ ")")
      ++ ")"
  | some (.synonym n target) =>
    "(alias " ++ n ++ " " ++ (match target with | some t => p.name t | none => "_") ++ ")"
  | _ => p.name id

-- ======== creation

/-- The pool with one more type, which has the next number. -/
def add (p : Pool) (t : TypeDef) : Pool := { p with types := p.types.push t }

/-- The number of a structural type, which is new if its written form is. The
form is written in the pool that already holds the type. -/
def intern (p : Pool) (t : TypeDef) : TypeId × Pool :=
  let id : TypeId := p.size
  let extended := p.add t
  let form := t.kind.text ++ ":" ++ extended.name id
  match p.forms.lookup form with
  | some old => (old, p)
  | none => (id, { extended with forms := (form, id) :: p.forms })

def list (p : Pool) (elem : TypeId) : TypeId × Pool := p.intern (.list elem)
def fn (p : Pool) (params : List TypeId) (result : TypeId) : TypeId × Pool :=
  p.intern (.fn params result)
def tuple (p : Pool) (elems : List TypeId) : TypeId × Pool := p.intern (.tuple elems)
def var (p : Pool) (name : String) : TypeId × Pool := p.intern (.var name)

/-- A named type of a kind before its definition. -/
def declaration? (name : String) : Kind → Option TypeDef
  | .record => some (.record name none)
  | .enum => some (.enum name none)
  | .synonym => some (.synonym name none)
  | _ => none

/-- Reserves a number for a named type, so that it can be mentioned before it
is defined. -/
def declare (p : Pool) (name : String) (kind : Kind) : Except PoolError (TypeId × Pool) :=
  match declaration? name kind with
  | none => .error (.undeclarable kind name)
  | some t =>
    match p.byName? name with
    | some _ => .error (.redeclared name)
    | none =>
      let id : TypeId := p.size
      .ok (id, { p.add t with names := (name, id) :: p.names })

-- ======== definition

/-- The name of a type of the given kind that waits for its definition. -/
def awaiting (p : Pool) (id : TypeId) (kind : Kind) : Except PoolError String := do
  let t ← p.find id
  if t.kind ≠ kind then .error (.wrongKind t.name t.kind kind)
  else if t.isDefined then .error (.alreadyDefined t.name)
  else .ok t.name

/-- The pool with a type in the place of another. -/
def replace (p : Pool) (id : TypeId) (t : TypeDef) : Pool :=
  { p with types := p.types.setIfInBounds id.toNat t }

def defineRecord (p : Pool) (id : TypeId) (fields : List Field) : Except PoolError Pool := do
  let name ← p.awaiting id .record
  return p.replace id (.record name (some fields))

/-- Defines a declared enum, which has at least one variant. -/
def defineEnum (p : Pool) (id : TypeId) (variants : List Variant) : Except PoolError Pool := do
  let name ← p.awaiting id .enum
  if variants.isEmpty then .error (.noVariants name)
  else return p.replace id (.enum name (some variants))

/-- Gives a declared alias its target. -/
def resolve (p : Pool) (id target : TypeId) : Except PoolError Pool := do
  let name ← p.awaiting id .synonym
  match p.get? target with
  | none => .error (.unknownTarget name target)
  | some _ => return p.replace id (.synonym name (some target))

/-- Declares and defines a record. -/
def newRecord (p : Pool) (name : String) (fields : List Field) :
    Except PoolError (TypeId × Pool) := do
  let (id, p) ← p.declare name .record
  return (id, ← p.defineRecord id fields)

/-- Declares and defines an enum. -/
def newEnum (p : Pool) (name : String) (variants : List Variant) :
    Except PoolError (TypeId × Pool) := do
  let (id, p) ← p.declare name .enum
  return (id, ← p.defineEnum id variants)

end Pool

end RefCount
