/-
Literals, primitive operations and parameter modes: what programs and graphs
share.
-/
import RefCount.Text.Quoted
import RefCount.Numeral.Print

namespace RefCount

/-- A literal value. A character is its code, whatever number that is. -/
inductive Literal where
  | unit
  | int (value : Int64)
  | float (value : Float)
  | bool (value : Bool)
  | char (code : Int32)
  | str (value : Bytes)
  deriving Repr, Inhabited

namespace Literal

/-- Whether two literals are the same value of the same kind. A NaN is the
same as no literal. -/
def same : Literal → Literal → Bool
  | unit, unit => true
  | int a, int b => a == b
  | float a, float b => a == b
  | bool a, bool b => a == b
  | char a, char b => a == b
  | str a, str b => a == b
  | _, _ => false

def text : Literal → String
  | unit => "unit"
  | int n => toString n.toInt
  | float x => Numeral.floatText x
  | bool b => if b then "true" else "false"
  | char c => "char " ++ toString c.toInt
  | str s => Text.quote s

end Literal

/-- The name of a primitive operation. Any name may occur; the machine knows
only some. -/
abbrev Op := String

/-- Whether a function takes over its caller's reference to an argument. -/
inductive Mode where
  | owned
  | borrowed
  deriving DecidableEq, Repr, Inhabited

def Mode.text : Mode → String
  | owned => "owned"
  | borrowed => "borrowed"

/-- The modes of the parameters of functions, by name. A later entry for a
name takes the place of an earlier one. -/
abbrev Signatures := List (String × List Mode)

namespace Signatures

/-- The modes of a function's parameters. -/
def find? (s : Signatures) (name : String) : Option (List Mode) := s.lookup name

def put (s : Signatures) (name : String) (modes : List Mode) : Signatures :=
  match s with
  | [] => [(name, modes)]
  | (n, ms) :: rest => if n = name then (n, modes) :: rest else (n, ms) :: put rest name modes

end Signatures

end RefCount
