/-
Aliases of parameters. A move or a projection gives another name to a part of
what a parameter holds; the root of a variable is the parameter that it leads
back to. Roots are spread along moves and projections in rounds, until a
round changes nothing.

Where a variable has one definition a round that changes anything gives a
variable its root for good, so that there are fewer rounds than variables.
-/
import RefCount.BitSet
import RefCount.Ir.Operands

namespace RefCount.Borrow

open Ir

abbrev Roots := Array (Option Var)

/-- The variables that an instruction makes aliases: the new name and the
old. -/
def aliasOf? : Instr → Option (Var × Var)
  | .move dst src => some (dst, src)
  | .project dst src _ _ => some (dst, src)
  | _ => none

namespace Roots

/-- The root of a variable; every variable that is asked for must exist. -/
def get (r : Roots) (v : Var) : Except Fault (Option Var) :=
  match r[v]? with
  | some root => .ok root
  | none => .error .variable

/-- Spreads a root along an alias, and says whether that changed anything. -/
def spread (s : Roots × Bool) (a : Var × Var) : Except Fault (Roots × Bool) := do
  match ← s.1.get a.2 with
  | none => return s
  | some p =>
    if (← s.1.get a.1) = some p then return s
    else return (s.1.setIfInBounds a.1 (some p), true)

def round (aliases : List (Var × Var)) (r : Roots) : Except Fault (Roots × Bool) :=
  aliases.foldlM spread (r, false)

/-- Rounds until nothing changes, at most so many. -/
def settle (aliases : List (Var × Var)) : Nat → Roots → Except Fault Roots
  | 0, _ => .error .limit
  | rounds + 1, r => do
    let (r, changed) ← round aliases r
    if changed then settle aliases rounds r else return r

def ofParams (f : Func) : Except Fault Roots :=
  f.params.foldlM
    (fun r p => do
      let _ ← r.get p.var
      return r.setIfInBounds p.var (some p.var))
    (Array.replicate f.types.size none)

/-- The roots of a function's variables. -/
def ofFunc (f : Func) : Except Fault Roots := do
  let n := f.types.size
  settle (f.instrs.filterMap aliasOf?) ((n + 1) * (n + 2)) (← ofParams f)

end Roots

/-- The variables whose root is a borrowed parameter. -/
def derived (f : Func) : Except Fault BitSet := do
  let roots ← Roots.ofFunc f
  return .ofList ((List.range roots.size).filter fun v =>
    match roots.getD v none with
    | none => false
    | some p => (f.param? p).any (·.mode = .borrowed))

end RefCount.Borrow
