/-
When a graph is typed: every variable has a type, and every instruction and
terminator treats the variables it mentions as values of their types.

# What typing rests on

A `Typing` fixes the pool, the types of the functions that may be called and
which types agree with each other. Agreement is left open, so that types may
be told apart by number or be taken to agree with their aliases; `Never` fits
any type in either case. The built-in types have their usual numbers, which
the machine and the code of a match rely on.

# What is not asked

Typing is about the graph before counting: counts, tokens and updates in
place have no typing. Nothing is asked of the order of definitions and uses,
which is the matter of `Func.check`.
-/
import Mathlib
import RefCount.Ir.Check
import RefCount.Program.Body

namespace RefCount

namespace Pool

/-- The built-in types have their usual numbers. -/
def HasBuiltins (p : Pool) : Prop :=
  ∀ (i : Nat) (b : Builtin), builtins[i]? = some b → p.get? i = some (.builtin b)

/-- The type of a field of a variant. -/
def fieldType? (p : Pool) (t : TypeId) (variant field : Int) : Option TypeId :=
  (p.fields t variant).toOption.bind (at? · field)

variable {p : Pool}

section

variable {t : TypeId} {d : TypeDef} (h : p.get? t = some d) (hd : ∀ n target, d ≠ .synonym n target)
include h hd

/-- A type that is no alias stands for itself. -/
theorem underlying_of_get : p.underlying t = t := by
  rw [underlying, underlyingWithin, h]
  cases d with
  | synonym n target => exact absurd rfl (hd n target)
  | _ => rfl

/-- A type that is no alias is its own shape. -/
theorem shape_of_get : p.shape? t = some d := by
  rw [shape?, underlying_of_get h hd, h]

end

theorem HasBuiltins.shape (h : p.HasBuiltins) {i : Nat} {b : Builtin}
    (hb : builtins[i]? = some b) : p.shape? i = some (.builtin b) :=
  shape_of_get (h i b hb) (fun _ _ e => TypeDef.noConfusion e)

theorem HasBuiltins.bool (h : p.HasBuiltins) :
    p.shape? .bool = some (.builtin .bool) := h.shape (i := 2) rfl

theorem HasBuiltins.int (h : p.HasBuiltins) :
    p.shape? .int = some (.builtin .int) := h.shape (i := 3) rfl

end Pool

-- ======== literals and operations

/-- The built-in type of a literal. -/
def Literal.builtin : Literal → Builtin
  | unit => .unit
  | int _ => .int
  | float _ => .float
  | bool _ => .bool
  | char _ => .char
  | str _ => .str

/-- What typing rests on. -/
structure Typing where
  pool : Pool
  funcs : List (String × FuncType)
  /-- Which types agree. -/
  agree : TypeId → TypeId → Prop
  agree_refl : ∀ t, agree t t
  builtins : pool.HasBuiltins

namespace Typing

variable (Θ : Typing)

/-- A value of the first type may stand where one of the second is expected. -/
def Fits (a b : TypeId) : Prop := a = .never ∨ Θ.agree a b

theorem fits_refl (t : TypeId) : Θ.Fits t t := .inr (Θ.agree_refl t)

/-- A literal is a value of a type. -/
def LitFits (v : Literal) (t : TypeId) : Prop :=
  Θ.pool.shape? t = some (.builtin v.builtin)

/-- A type is a given built-in one, behind aliases. -/
def Is (b : Builtin) (t : TypeId) : Prop := Θ.pool.shape? t = some (.builtin b)

/-- Values of a type can be compared for equality: what the type is must be
known, and be no type variable. -/
def Comparable (t : TypeId) : Prop :=
  ∃ d, Θ.pool.shape? t = some d ∧ ∀ n, d ≠ .var n

/-- An operation takes operands of some types to a result of a type. -/
inductive PrimFits : Op → List TypeId → TypeId → Prop
  /-- An operand never comes. -/
  | never {op : Op} {ts : List TypeId} {t : TypeId} (h : TypeId.never ∈ ts) :
      PrimFits op ts t
  | arith {op : Op} {b : Builtin} {t u r : TypeId}
      (hop : op ∈ ["add", "sub", "mul", "div"]) (hb : b ∈ [Builtin.int, .float])
      (ht : Θ.Is b t) (hu : Θ.Is b u) (hr : Θ.Is b r) : PrimFits op [t, u] r
  | rem {t u r : TypeId} (ht : Θ.Is .int t) (hu : Θ.Is .int u)
      (hr : Θ.Is .int r) : PrimFits "rem" [t, u] r
  | neg {b : Builtin} {t r : TypeId} (hb : b ∈ [Builtin.int, .float])
      (ht : Θ.Is b t) (hr : Θ.Is b r) : PrimFits "neg" [t] r
  | order {op : Op} {b : Builtin} {t u r : TypeId}
      (hop : op ∈ ["lt", "le", "gt", "ge"])
      (hb : b ∈ [Builtin.int, .float, .char])
      (ht : Θ.Is b t) (hu : Θ.Is b u) (hr : Θ.Is .bool r) :
      PrimFits op [t, u] r
  | equal {op : Op} {t u r : TypeId} (hop : op ∈ ["eq", "ne"])
      (ht : Θ.Comparable t) (hu : Θ.pool.shape? t = Θ.pool.shape? u)
      (hr : Θ.Is .bool r) : PrimFits op [t, u] r
  | logic {op : Op} {t u r : TypeId} (hop : op ∈ ["and", "or"])
      (ht : Θ.Is .bool t) (hu : Θ.Is .bool u) (hr : Θ.Is .bool r) :
      PrimFits op [t, u] r
  | not {t r : TypeId} (ht : Θ.Is .bool t) (hr : Θ.Is .bool r) :
      PrimFits "not" [t] r
  | concat {t u r : TypeId} (ht : Θ.Is .str t) (hu : Θ.Is .str u)
      (hr : Θ.Is .str r) : PrimFits "concat" [t, u] r
  | strlen {t r : TypeId} (ht : Θ.Is .str t) (hr : Θ.Is .int r) :
      PrimFits "strlen" [t] r

end Typing

namespace Ir

-- ======== graphs

variable (Θ : Typing)

/-- A variable has a type that fits the expected one. -/
def Func.VarFits (f : Func) (v : Var) (t : TypeId) : Prop :=
  ∃ a, f.type? v = some a ∧ Θ.Fits a t

/-- Variables fit expected types, one for one. -/
def Func.VarsFit (f : Func) (vs : List Var) (ts : List TypeId) : Prop :=
  List.Forall₂ (f.VarFits Θ) vs ts

/-- Variables have given types. -/
def Func.HasTypes (f : Func) (vs : List Var) (ts : List TypeId) : Prop :=
  List.Forall₂ (fun v t => f.type? v = some t) vs ts

/-- An instruction gives its variables values of their types. -/
def Instr.Typed (f : Func) : Instr → Prop
  | lit dst v => ∃ t, f.type? dst = some t ∧ Θ.LitFits v t
  | move dst src => ∃ t, f.type? dst = some t ∧ f.VarFits Θ src t
  | prim dst op args =>
    ∃ ts t, f.HasTypes args ts ∧ f.type? dst = some t ∧ Θ.PrimFits op ts t
  | call dst func args _ =>
    ∃ ft, Θ.funcs.lookup func = some ft ∧ f.VarsFit Θ args ft.params ∧
      f.type? dst = some ft.result
  | callClosure dst c args =>
    ∃ t ps r, f.type? c = some t ∧ Θ.pool.shape? t = some (.fn ps r) ∧
      f.VarsFit Θ args ps ∧ f.type? dst = some r
  | closure dst func captures =>
    ∃ ft t, Θ.funcs.lookup func = some ft ∧
      f.VarsFit Θ captures (ft.params.take captures.length) ∧
      f.type? dst = some t ∧
      Θ.pool.shape? t = some (.fn (ft.params.drop captures.length) ft.result)
  | construct dst t variant args =>
    f.type? dst = some t ∧
      ∃ ts, Θ.pool.fields t variant = .ok ts ∧ f.VarsFit Θ args ts
  | project dst src variant field =>
    ∃ t u, f.type? src = some t ∧ Θ.pool.fieldType? t variant field = some u ∧
      f.type? dst = some u
  | tag dst src =>
    f.type? dst = some .int ∧
      ∃ t n vs, f.type? src = some t ∧ Θ.pool.shape? t = some (.enum n vs)
  | _ => False

/-- A switch can look at values of a type. -/
def Switchable (t : TypeId) : Prop :=
  ∃ b ∈ [Builtin.int, .bool, .char], Θ.pool.shape? t = some (.builtin b)

/-- A terminator treats variables as values of their types, and hands a block
values for its parameters. -/
def Term.Typed (f : Func) : Term → Prop
  | ret v => f.VarFits Θ v f.result
  | jump target args =>
    ∃ b block ts, target = some b ∧ f.block? b = some block ∧
      f.HasTypes block.params ts ∧ f.VarsFit Θ args ts
  | branch c _ _ => f.VarFits Θ c .bool
  | switch v _ _ => ∃ t, f.type? v = some t ∧ Switchable Θ t
  | unreachable => True

/-- A block is typed. -/
structure Block.Typed (f : Func) (b : Block) : Prop where
  code : ∀ x ∈ b.code, x.Typed Θ f
  term : ∀ t, b.term = some t → t.Typed Θ f

/-- A function is typed. -/
structure Func.Typed (f : Func) : Prop where
  params : ∀ p ∈ f.params, f.type? p.var = some p.type
  blocks : ∀ b ∈ f.blocks, b.Typed Θ f

end Ir

end RefCount
