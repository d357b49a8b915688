/-
Typed programs. Every expression carries its type. `recur` jumps to the
innermost enclosing loop from any position, `ret` leaves the function, and a
match takes the first arm whose pattern and guard succeed. An expression or a
pattern may be missing; a missing one has no meaning and cannot be lowered.
-/
import RefCount.Literal
import RefCount.Types.Pool

namespace RefCount

inductive Pattern where
  | missing
  | wild
  | bind (name : String)
  | lit (value : Literal)
  /-- A variant of an enum; records and tuples have variant 0. -/
  | variant (type : TypeId) (index : Int) (fields : List Pattern)
  | as (name : String) (pattern : Pattern)
  | or (alternatives : List Pattern)
  /-- Integers from `low` to `high`, both included. -/
  | range (low high : Int64)
  deriving Repr, Inhabited

mutual

/-- An expression, with its type. -/
inductive Expr where
  | missing
  | lit (type : TypeId) (value : Literal)
  | ref (type : TypeId) (name : String)
  | bind (type : TypeId) (name : String) (value body : Expr)
  | seq (type : TypeId) (exprs : List Expr)
  | prim (type : TypeId) (op : Op) (args : List Expr)
  | call (type : TypeId) (func : String) (args : List Expr)
  | callClosure (type : TypeId) (closure : Expr) (args : List Expr)
  /-- A closure of a function over values for its first parameters. -/
  | closure (type : TypeId) (func : String) (captures : List Expr)
  | construct (type : TypeId) (variant : Int) (args : List Expr)
  | field (type : TypeId) (of : Expr) (variant index : Int)
  | cond (type : TypeId) (condition thenExpr elseExpr : Expr)
  | select (type : TypeId) (scrutinee : Expr) (arms : List Arm)
  | loop (type : TypeId) (names : List String) (inits : List Expr) (body : Expr)
  | recur (type : TypeId) (args : List Expr)
  | ret (type : TypeId) (value : Expr)

/-- An arm of a match. -/
inductive Arm where
  | mk (pattern : Pattern) (guard : Option Expr) (body : Expr)

end

instance : Inhabited Expr := ⟨.missing⟩
instance : Inhabited Arm := ⟨.mk .missing none .missing⟩

def Arm.pattern : Arm → Pattern
  | mk p _ _ => p

def Arm.guard : Arm → Option Expr
  | mk _ g _ => g

def Arm.body : Arm → Expr
  | mk _ _ b => b

/-- The type of an expression; a missing one has none. -/
def Expr.type : Expr → TypeId
  | missing => .none
  | lit t _ => t
  | ref t _ => t
  | bind t _ _ _ => t
  | seq t _ => t
  | prim t _ _ => t
  | call t _ _ => t
  | callClosure t _ _ => t
  | closure t _ _ => t
  | construct t _ _ => t
  | field t _ _ _ => t
  | cond t _ _ _ => t
  | select t _ _ => t
  | loop t _ _ _ => t
  | recur t _ => t
  | ret t _ => t

/-- A function that the host provides. -/
structure Extern where
  name : String
  params : List TypeId
  modes : List Mode
  result : TypeId
  deriving Repr, Inhabited

/-- A function of a program. -/
structure Definition where
  name : String
  params : List (String × TypeId)
  result : TypeId
  body : Expr
  deriving Inhabited

/-- A program over a pool of types. -/
structure Program where
  pool : Pool
  externs : List Extern
  funcs : List Definition
  deriving Inhabited

/-- The modes of the host functions of a program. -/
def Program.signatures (p : Program) : Signatures :=
  p.externs.foldl (fun s e => s.put e.name e.modes) []

end RefCount
