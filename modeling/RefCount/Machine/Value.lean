/-
Values of the machine. Enums without payload and truth values are integers;
records, enums with payload, strings and closures are references to the heap;
tuples are held in place.
-/

namespace RefCount.Machine

/-- An address of the heap. Arithmetic on addresses wraps around. -/
abbrev Address := Int64

inductive Value where
  | unit
  | int (n : Int64)
  | float (x : Float)
  | ref (p : Address)
  | tuple (elems : List Value)
  deriving Repr, Inhabited

namespace Value

def kind : Value → Nat
  | unit => 0
  | int _ => 1
  | float _ => 2
  | ref _ => 3
  | tuple _ => 4

def ofBool (b : Bool) : Value := int (if b then 1 else 0)

/-- The integer that a value is read as; only integers are not zero. -/
def toInt : Value → Int64
  | int n => n
  | _ => 0

/-- The number that a value is read as; only floating-point numbers are not
zero. -/
def toFloat : Value → Float
  | float x => x
  | _ => 0.0

/-- The address that a value is read as; only references are not null. -/
def address : Value → Address
  | ref p => p
  | _ => 0

mutual

/-- The number of values that a value consists of. -/
def weight : Value → Nat
  | tuple elems => weightOfAll elems + 1
  | _ => 1

/-- The number of values that values consist of. -/
def weightOfAll : List Value → Nat
  | [] => 0
  | v :: vs => weight v + weightOfAll vs

end

theorem weight_pos (v : Value) : 0 < v.weight := by
  cases v <;> simp [weight]

end Value

end RefCount.Machine
