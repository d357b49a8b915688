/-
Types. A type is named by its number in a pool. Structural types hold the
numbers of their parts; records, enums and aliases have names, and may be
declared before they are defined. A number need not be known to any pool.
-/
namespace RefCount

abbrev TypeId := Int

namespace TypeId

/-- The number that stands for no type. -/
def none : TypeId := -1

def unit : TypeId := 0
def never : TypeId := 1
def bool : TypeId := 2
def int : TypeId := 3
def float : TypeId := 4
def char : TypeId := 5
def str : TypeId := 6

end TypeId

/-- The kinds of types. -/
inductive Kind where
  | unit | never | bool | int | float | char | str
  | list | fn | tuple | record | enum | synonym | var
  deriving DecidableEq, Repr, Inhabited

namespace Kind

def all : List Kind :=
  [unit, never, bool, int, float, char, str, list, fn, tuple, record, enum, synonym, var]

def ofNat? (n : Nat) : Option Kind := all[n]?

/-- The name of a kind. The name of a built-in type is that of its kind. -/
def text : Kind → String
  | unit => "Unit"
  | never => "Never"
  | bool => "Bool"
  | int => "Int"
  | float => "Float"
  | char => "Char"
  | str => "Str"
  | list => "list"
  | fn => "fn"
  | tuple => "tuple"
  | record => "record"
  | enum => "enum"
  | synonym => "alias"
  | var => "var"

/-- The name of a number as a kind. -/
def textOf (n : Nat) : String :=
  match ofNat? n with
  | some k => k.text
  | none => "Kind(" ++ toString n ++ ")"

end Kind

/-- A field of a variant. -/
structure Field where
  name : String
  type : TypeId
  deriving DecidableEq, Repr, Inhabited

/-- A variant of an enum, or the one variant of a record. -/
structure Variant where
  name : String
  fields : List Field
  deriving DecidableEq, Repr, Inhabited

/-- The kinds of types that have no parts and no name of their own. -/
inductive Builtin where
  | unit | never | bool | int | float | char | str
  deriving DecidableEq, Repr, Inhabited

def Builtin.kind : Builtin → Kind
  | unit => .unit
  | never => .never
  | bool => .bool
  | int => .int
  | float => .float
  | char => .char
  | str => .str

/-- What a type is. A declared type that is not defined yet has no content. -/
inductive TypeDef where
  | builtin (b : Builtin)
  | list (elem : TypeId)
  | fn (params : List TypeId) (result : TypeId)
  | tuple (elems : List TypeId)
  | var (name : String)
  | record (name : String) (fields : Option (List Field))
  | enum (name : String) (variants : Option (List Variant))
  | synonym (name : String) (target : Option TypeId)
  deriving DecidableEq, Repr, Inhabited

namespace TypeDef

def kind : TypeDef → Kind
  | builtin b => b.kind
  | list _ => .list
  | fn _ _ => .fn
  | tuple _ => .tuple
  | var _ => .var
  | record _ _ => .record
  | enum _ _ => .enum
  | synonym _ _ => .synonym

/-- The name of a type; structural types have none. -/
def name : TypeDef → String
  | builtin b => b.kind.text
  | list _ => ""
  | fn _ _ => ""
  | tuple _ => ""
  | var n => n
  | record n _ => n
  | enum n _ => n
  | synonym n _ => n

/-- The element of a list or the target of an alias. -/
def elem : TypeDef → TypeId
  | list e => e
  | synonym _ (some t) => t
  | _ => .none

/-- The parameters of a function or the elements of a tuple. -/
def params : TypeDef → List TypeId
  | fn ps _ => ps
  | tuple es => es
  | _ => []

def result : TypeDef → TypeId
  | fn _ r => r
  | _ => .none

/-- The variants of an enum; a defined record has one, named like it. -/
def variants : TypeDef → List Variant
  | record n (some fs) => [⟨n, fs⟩]
  | enum _ (some vs) => vs
  | _ => []

/-- Whether nothing is left to define. -/
def isDefined : TypeDef → Bool
  | record _ fs => fs.isSome
  | enum _ vs => vs.isSome
  | synonym _ t => t.isSome
  | _ => true

/-- Every type that a type mentions. -/
def mentions (t : TypeDef) : List TypeId :=
  t.elem :: t.result :: (t.params ++ t.variants.flatMap fun v => v.fields.map (·.type))

end TypeDef

end RefCount
