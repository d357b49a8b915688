/-
Functions as control-flow graphs. A function has variables, numbered and
typed, and blocks, numbered and with parameters; each block ends in a
terminator that hands over to another block, with arguments for its
parameters, or leaves the function.

A graph may be malformed: an edge may lead nowhere or to a block that is not
there, a block may lack its terminator or carry another number than its
place. What a well-formed graph is stands in `Ir.Check`.
-/
import RefCount.Literal
import RefCount.Types.Basic

namespace RefCount.Ir

/-- The number of a variable. -/
abbrev Var := Nat

abbrev BlockId := Nat

/-- The number that no block has in a well-formed graph; it is written as a
dash. -/
def noBlock : BlockId := 4294967295

/-- Where an edge leads; nowhere is possible. -/
abbrev Target := Option BlockId

inductive Instr where
  | lit (dst : Var) (value : Literal)
  | move (dst src : Var)
  | prim (dst : Var) (op : Op) (args : List Var)
  | call (dst : Var) (func : String) (args : List Var) (tail : Bool)
  | callClosure (dst closure : Var) (args : List Var)
  | closure (dst : Var) (func : String) (captures : List Var)
  | construct (dst : Var) (type : TypeId) (variant : Int) (args : List Var)
  | project (dst src : Var) (variant field : Int)
  | tag (dst src : Var)
  /-- Counts one more reference. -/
  | inc (var : Var)
  /-- Counts one reference less. -/
  | dec (var : Var)
  /-- Releases a reference and keeps the memory as a token if it was the last. -/
  | reset (token var : Var)
  /-- Constructs in the memory of a token, or in new memory. -/
  | reuse (dst token : Var) (type : TypeId) (variant : Int) (args : List Var)
  | isShared (dst var : Var)
  | set (var : Var) (field : Int) (value : Var)
  | setTag (var : Var) (variant : Int)
  deriving Repr, Inhabited

/-- A case of a switch. -/
structure Case where
  value : Int64
  target : Target
  deriving DecidableEq, Repr, Inhabited

/-- How a block ends. -/
inductive Term where
  | ret (value : Var)
  | jump (target : Target) (args : List Var)
  | branch (cond : Var) (thenTo elseTo : Target)
  | switch (value : Var) (cases : List Case) (default : Target)
  | unreachable
  deriving DecidableEq, Repr, Inhabited

structure Block where
  id : BlockId
  params : List Var
  code : List Instr
  term : Option Term
  deriving Repr, Inhabited

/-- A parameter of a function. -/
structure Param where
  var : Var
  type : TypeId
  mode : Mode
  deriving DecidableEq, Repr, Inhabited

/-- A function. -/
structure Func where
  name : String
  params : List Param
  result : TypeId
  blocks : Array Block
  entry : BlockId
  types : Array TypeId
  deriving Repr, Inhabited

def varText (v : Var) : String := "v" ++ toString v

/-- The text of where an edge leads. -/
def targetText : Target → String
  | some b => "b" ++ toString b
  | none => "-"

def blockText (b : BlockId) : String := targetText (if b = noBlock then none else some b)

namespace Func

def block? (f : Func) (b : BlockId) : Option Block := f.blocks[b]?

/-- The type of a variable, if it has one. -/
def type? (f : Func) (v : Var) : Option TypeId := f.types[v]?

def typeOf (f : Func) (v : Var) : TypeId := (f.type? v).getD .none

def param? (f : Func) (v : Var) : Option Param := f.params.find? (·.var = v)

def modes (f : Func) : List Mode := f.params.map (·.mode)

/-- The function with one more variable, which has the next number. -/
def newVar (f : Func) (t : TypeId) : Var × Func :=
  (f.types.size, { f with types := f.types.push t })

/-- The function with one more block, which is empty and has the next
number. -/
def newBlock (f : Func) : BlockId × Func :=
  (f.blocks.size, { f with blocks := f.blocks.push ⟨f.blocks.size, [], [], none⟩ })

/-- The function with a block changed. -/
def modifyBlock (f : Func) (b : BlockId) (g : Block → Block) : Func :=
  { f with blocks := f.blocks.modify b g }

def instrs (f : Func) : List Instr := f.blocks.toList.flatMap (·.code)

end Func

end RefCount.Ir
