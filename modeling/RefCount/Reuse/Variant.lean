/-
The variant that a value is known to have at a point: a projection on the way
there shows it, and so does a switch on its tag. The way back is followed as
long as it is unique. A record has but one variant.
-/
import RefCount.Ir.Flow
import RefCount.Types.Walk

namespace RefCount.Reuse

open Ir

/-- The variant of the last projection out of a variable. -/
def lastProjected? (v : Var) (code : List Instr) : Option Int :=
  code.reverse.findSome? fun
    | .project _ src variant _ => if src = v then some variant else none
    | _ => none

/-- Whether code takes the tag of a variable into another. -/
def takesTag (tag v : Var) (code : List Instr) : Bool :=
  code.any fun
    | .tag dst src => dst = tag && src = v
    | _ => false

/-- The value of the only case that leads to a block, which must not be the
default. -/
def onlyCase? (cases : List Case) (default : Target) (b : BlockId) : Option Int :=
  if default = some b then none
  else
    match cases.filter (·.target = some b) with
    | [c] => some c.value.toInt
    | _ => none

/-- The cases and the default of the switch on the tag of a variable that ends
a block. -/
def tagSwitch? (v : Var) (b : Block) : Option (List Case × Target) :=
  match b.term with
  | some (.switch tag cases default) => if takesTag tag v b.code then some (cases, default) else none
  | _ => none

/-- The variant known behind some code of a block, followed back over at most
so many blocks. -/
def variantWithin (f : Func) (v : Var) :
    Nat → BlockId → List Instr → Except Fault (Option Int)
  | 0, _, _ => .ok none
  | steps + 1, b, before =>
    match lastProjected? v before with
    | some variant => .ok (some variant)
    | none =>
      if f.blocks.size ≤ b then .error .block
      else
        match f.preds b with
        | [p] =>
          match f.block? p with
          | none => .error .block
          | some pb =>
            match tagSwitch? v pb with
            | some (cases, default) => .ok (onlyCase? cases default b)
            | none => variantWithin f v steps pb.id pb.code
        | _ => .ok none

/-- The variant that a variable is known to have behind some code of a
block. -/
def knownVariant? (pool : Pool) (f : Func) (b : BlockId) (before : List Instr) (v : Var) :
    Except Fault (Option Int) :=
  match f.type? v with
  | none => .error .variable
  | some t =>
    match pool.shape? t with
    | none => .error .type
    | some shape =>
      if shape.kind = .record then .ok (some 0)
      else variantWithin f v (f.blocks.size + 1) b before

end RefCount.Reuse
