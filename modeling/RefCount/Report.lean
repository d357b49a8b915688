/-
The report on a compiled program: for every function which memory it reuses
and which it does not and why, and the drop descriptors.
-/
import RefCount.Pipeline

namespace RefCount.Report

open Ir Reuse Drop Pipeline

def pairLine (pool : Pool) (p : Pair) : String :=
  "  reuse " ++ varText p.var ++ " -> " ++ varText p.dst ++ "  " ++ pool.name p.type ++ "  in " ++
    blockText p.block ++ "\n"

/-- The line about a release without reuse. -/
def missLine (pool : Pool) (m : Miss) : String :=
  let candidate := match m.candidate with
    | none => ""
    | some c => "  construct " ++ varText c.var ++ " " ++ pool.name c.type ++ " in " ++
        blockText c.block
  "  miss  " ++ varText m.var ++ " in " ++ blockText m.block ++ "  " ++ m.reason.text ++
    candidate ++ "\n"

/-- The lines about a function. -/
def funcLines (pool : Pool) (st : FuncStats) : String :=
  let r := st.report
  "func " ++ st.name ++ "  fbip " ++ (if r.isInPlace then "true" else "false") ++ "  reused " ++
    toString r.achieved.length ++ "  missed " ++ toString r.missed.length ++ "\n" ++
    String.join (r.achieved.map (pairLine pool)) ++ String.join (r.missed.map (missLine pool))

def fieldsText (pool : Pool) (fs : List DropField) : String :=
  String.join (fs.map fun f => " " ++ toString f.index ++ ":" ++ pool.name f.type)

/-- The text of what to release. -/
def layoutText (pool : Pool) : Layout → String
  | .trivial => ""
  | .fields fs => fieldsText pool fs
  | .closure fs => fieldsText pool fs
  | .enum vs => String.join (vs.zipIdx.map fun (fs, i) =>
      "  [" ++ toString i ++ "]" ++ fieldsText pool fs)
  | .list elem => " " ++ pool.name elem

def dropLine (pool : Pool) (name : String) (d : Descriptor) : String :=
  "drop " ++ name ++ "  " ++ d.layout.kindText ++ layoutText pool d.layout ++ "\n"

/-- The report on a compiled program. -/
def text (a : Analysis) : String :=
  String.join (a.stats.map (funcLines a.pool)) ++
    String.join (a.drops.sortedTypes.map fun (t, d) =>
      dropLine a.pool ("type " ++ a.pool.name t) d) ++
    String.join (a.drops.sortedEnvs.map fun (name, d) => dropLine a.pool ("env " ++ name) d)

end RefCount.Report
