/-
The text of functions. It determines the function up to the types of its
variables, and is what the cache hashes.
-/
import RefCount.Ir.Basic
import RefCount.Types.Pool
import RefCount.Fault

namespace RefCount.Ir

/-- Variables, each after a space. -/
def varsText (vs : List Var) : String := String.join (vs.map fun v => " " ++ varText v)

def variantText (p : Pool) (t : TypeId) (v : Int) : String := p.name t ++ "." ++ toString v

def Instr.text (p : Pool) : Instr → String
  | .lit dst v => varText dst ++ " = " ++ v.text
  | .move dst src => varText dst ++ " = move " ++ varText src
  | .prim dst op args => varText dst ++ " = " ++ op ++ varsText args
  | .call dst f args tail =>
    varText dst ++ " = call " ++ f ++ varsText args ++ (if tail then " tail" else "")
  | .callClosure dst c args => varText dst ++ " = call_indirect " ++ varText c ++ varsText args
  | .closure dst f captures => varText dst ++ " = closure " ++ f ++ varsText captures
  | .construct dst t v args => varText dst ++ " = new " ++ variantText p t v ++ varsText args
  | .project dst src v i =>
    varText dst ++ " = proj " ++ varText src ++ "." ++ toString v ++ "." ++ toString i
  | .tag dst src => varText dst ++ " = tag " ++ varText src
  | .inc v => "inc " ++ varText v
  | .dec v => "dec " ++ varText v
  | .reset token v => varText token ++ " = reset " ++ varText v
  | .reuse dst token t v args =>
    varText dst ++ " = reuse " ++ varText token ++ " " ++ variantText p t v ++ varsText args
  | .isShared dst v => varText dst ++ " = is_shared " ++ varText v
  | .set v i value => "set " ++ varText v ++ "." ++ toString i ++ " = " ++ varText value
  | .setTag v n => "set_tag " ++ varText v ++ " = " ++ toString n

def Term.text : Term → String
  | .ret v => "return " ++ varText v
  | .jump b args => "jump " ++ targetText b ++ varsText args
  | .branch c a b => "branch " ++ varText c ++ " " ++ targetText a ++ " " ++ targetText b
  | .switch v cases d =>
    "switch " ++ varText v
      ++ String.join (cases.map fun c => " " ++ toString c.value.toInt ++ ":" ++ targetText c.target)
      ++ (if d.isSome then " default:" ++ targetText d else "")
  | .unreachable => "unreachable"

/-- A parameter of a block; its type must be known. -/
def blockParamText (p : Pool) (f : Func) (v : Var) : Except Fault String :=
  match f.type? v with
  | some t => .ok (varText v ++ " " ++ p.name t)
  | none => .error .variable

def Block.text (p : Pool) (f : Func) (b : Block) : Except Fault String := do
  let params ← b.params.mapM (blockParamText p f)
  return blockText b.id ++ "(" ++ ", ".intercalate params ++ "):\n"
    ++ String.join (b.code.map fun x => "\t" ++ x.text p ++ "\n")
    ++ "\t" ++ (match b.term with | some t => t.text | none => "<no terminator>") ++ "\n"

def Param.text (p : Pool) (q : Param) : String :=
  varText q.var ++ " " ++ p.name q.type ++ (if q.mode = .borrowed then " borrowed" else "")

def Func.text (p : Pool) (f : Func) : Except Fault String := do
  let blocks ← f.blocks.toList.mapM (Block.text p f)
  return "func " ++ f.name ++ "(" ++ ", ".intercalate (f.params.map (Param.text p)) ++ ") "
    ++ p.name f.result ++ " entry " ++ blockText f.entry ++ " \x7b\n" ++ String.join blocks
    ++ "\x7d\n"

/-- The text of several functions, with an empty line between them. -/
def packageText (p : Pool) (fs : List Func) : Except Fault String := do
  return "\n".intercalate (← fs.mapM (Func.text p))

end RefCount.Ir
