/-
The text of a value. References are followed, so a value that holds itself has
no text; the number of objects bounds how deep one can go otherwise.
-/
import RefCount.Machine.Basic
import RefCount.Numeral.Print
import RefCount.Text.Quoted

namespace RefCount.Machine

/-- The name that an object is shown with: that of its variant, or that of its
type. -/
def objectName (pool : Pool) (o : Object) : Except Fault String :=
  match pool.shape? o.type with
  | none => .error .type
  | some shape =>
    if o.variant < shape.variants.length then
      match (if o.variant < 0 then none else shape.variants[o.variant.toNat]?) with
      | none => .error .index
      | some v => .ok (if v.name.isEmpty then pool.name o.type else v.name)
    else .ok (pool.name o.type)

mutual

/-- A text with that of a value behind it, following references so deep. -/
def showWithin (pool : Pool) (h : Heap) (depth : Nat) (text : String) (v : Value) :
    Except Fault String :=
  match v with
  | .unit => .ok (text ++ "unit")
  | .int n => .ok (text ++ toString n.toInt)
  | .float x => .ok (text ++ Numeral.floatText x)
  | .tuple elems => do return (← showAllWithin pool h depth (text ++ "(tuple") elems) ++ ")"
  | .ref p =>
    match h.object p with
    | .error e => .ok (text ++ "<" ++ e.message ++ ">")
    | .ok o =>
      if o.type = .str then .ok (text ++ Text.quote o.str)
      else if !o.func.isEmpty then .ok (text ++ "<closure " ++ o.func ++ ">")
      else
        match depth with
        | 0 => .error .limit
        | depth + 1 => do
          let name ← objectName pool o
          return (← showAllWithin pool h depth (text ++ "(" ++ name) o.fields) ++ ")"
termination_by (depth, 2 * v.weight)
decreasing_by
  · apply Prod.Lex.right
    simp only [Value.weight]
    omega
  · apply Prod.Lex.left
    omega

/-- A text with those of values behind it, each behind a blank. -/
def showAllWithin (pool : Pool) (h : Heap) (depth : Nat) (text : String) (vs : List Value) :
    Except Fault String :=
  match vs with
  | [] => .ok text
  | v :: rest => do
    showAllWithin pool h depth (← showWithin pool h depth (text ++ " ") v) rest
termination_by (depth, 2 * Value.weightOfAll vs + 1)
decreasing_by
  all_goals
    apply Prod.Lex.right
    have := v.weight_pos
    simp only [Value.weightOfAll]
    omega

end

def showValue (pool : Pool) (h : Heap) (v : Value) : Except Fault String :=
  showWithin pool h (h.allocs + 1) "" v

end RefCount.Machine
