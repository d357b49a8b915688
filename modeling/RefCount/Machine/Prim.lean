/-
Primitive operations. The kind of the first operand decides between numbers
and strings; operands of another kind are read as zero. Integer arithmetic
wraps around, and division goes towards zero.
-/
import RefCount.Machine.Basic

namespace RefCount.Machine

/-- An operation on integers. -/
def intPrim (op : Op) (x y : Int64) : Except RunError Value :=
  match op with
  | "add" => .ok (.int (x + y))
  | "sub" => .ok (.int (x - y))
  | "mul" => .ok (.int (x * y))
  | "div" => if y = 0 then .error .divisionByZero else .ok (.int (x / y))
  | "rem" => if y = 0 then .error .divisionByZero else .ok (.int (x % y))
  | "neg" => .ok (.int (-x))
  | "lt" => .ok (.ofBool (x < y))
  | "le" => .ok (.ofBool (x ≤ y))
  | "gt" => .ok (.ofBool (y < x))
  | "ge" => .ok (.ofBool (y ≤ x))
  | "eq" => .ok (.ofBool (x = y))
  | "ne" => .ok (.ofBool (x ≠ y))
  | "and" => .ok (.ofBool (x ≠ 0 && y ≠ 0))
  | "or" => .ok (.ofBool (x ≠ 0 || y ≠ 0))
  | "not" => .ok (.ofBool (x = 0))
  | _ => .error (.unsupportedOp op)

/-- An operation on floating-point numbers. -/
def floatPrim (op : Op) (x y : Float) : Except RunError Value :=
  match op with
  | "add" => .ok (.float (x + y))
  | "sub" => .ok (.float (x - y))
  | "mul" => .ok (.float (x * y))
  | "div" => .ok (.float (x / y))
  | "neg" => .ok (.float (-x))
  | "lt" => .ok (.ofBool (x < y))
  | "le" => .ok (.ofBool (x ≤ y))
  | "gt" => .ok (.ofBool (y < x))
  | "ge" => .ok (.ofBool (y ≤ x))
  | "eq" => .ok (.ofBool (x == y))
  | "ne" => .ok (.ofBool (x != y))
  | _ => .error (.unsupportedFloatOp op)

def operandTexts (op : Op) (args : List Value) : Run (List Bytes) :=
  args.zipIdx.mapM fun (v, i) => do
    return (← inContext (.inOperand op i) (objectAt v.address)).str

/-- An operation on strings, which it only looks at. -/
def strPrim (op : Op) (args : List Value) : Run Value := do
  let texts ← operandTexts op args
  match op, texts with
  | "concat", s :: t :: _ => newStr (s ++ t)
  | "strlen", s :: _ => return .int (Int64.ofNat s.length)
  | "eq", s :: t :: _ => return .ofBool (s = t)
  | "ne", s :: t :: _ => return .ofBool (s ≠ t)
  | _, _ => throw (.fault .index)

/-- Whether an operation works on strings. -/
def isStringOp (op : Op) (args : List Value) : Bool :=
  op = "concat" || op = "strlen" ||
    ((op = "eq" || op = "ne") && (args.head?.map (·.kind)) = some 3)

/-- A primitive operation. -/
def prim (op : Op) (args : List Value) : Run Value :=
  if isStringOp op args then strPrim op args
  else
    match args with
    | [] => throw (.fault .index)
    | .float x :: rest => liftExcept (floatPrim op x (rest.headD .unit).toFloat)
    | v :: rest => liftExcept (intPrim op v.toInt (rest.headD .unit).toInt)
where
  /-- The result of an operation that does not change the world. -/
  liftExcept : Except RunError Value → Run Value
    | .ok v => return v
    | .error e => throw e

end RefCount.Machine
