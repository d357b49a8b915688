/-
What instructions and terminators read and define, and how their operands and
edges are replaced. A variable is listed once for each operand position it
occupies, in order.
-/
import RefCount.Ir.Basic
import RefCount.Fault

namespace RefCount.Ir

namespace Instr

/-- The variables that an instruction reads. -/
def uses : Instr → List Var
  | lit _ _ => []
  | move _ src => [src]
  | prim _ _ args => args
  | call _ _ args _ => args
  | callClosure _ c args => c :: args
  | closure _ _ captures => captures
  | construct _ _ _ args => args
  | project _ src _ _ => [src]
  | tag _ src => [src]
  | inc v => [v]
  | dec v => [v]
  | reset _ v => [v]
  | reuse _ token _ _ args => token :: args
  | isShared _ v => [v]
  | set v _ value => [v, value]
  | setTag v _ => [v]

/-- The variable that an instruction defines. -/
def def? : Instr → Option Var
  | lit dst _ => some dst
  | move dst _ => some dst
  | prim dst _ _ => some dst
  | call dst _ _ _ => some dst
  | callClosure dst _ _ => some dst
  | closure dst _ _ => some dst
  | construct dst _ _ _ => some dst
  | project dst _ _ _ => some dst
  | tag dst _ => some dst
  | reset token _ => some token
  | reuse dst _ _ _ _ => some dst
  | isShared dst _ => some dst
  | inc _ => none
  | dec _ => none
  | set _ _ _ => none
  | setTag _ _ => none

/-- Whether an instruction reads a variable. -/
def usesVar (x : Instr) (v : Var) : Bool := x.uses.contains v

def isCount : Instr → Bool
  | inc _ => true
  | dec _ => true
  | _ => false

/-- Replaces the operands of an instruction; what it defines is kept. -/
def substitute (m : Var → Var) : Instr → Instr
  | lit dst v => lit dst v
  | move dst src => move dst (m src)
  | prim dst op args => prim dst op (args.map m)
  | call dst f args t => call dst f (args.map m) t
  | callClosure dst c args => callClosure dst (m c) (args.map m)
  | closure dst f captures => closure dst f (captures.map m)
  | construct dst t v args => construct dst t v (args.map m)
  | project dst src v i => project dst (m src) v i
  | tag dst src => tag dst (m src)
  | inc v => inc (m v)
  | dec v => dec (m v)
  | reset token v => reset token (m v)
  | reuse dst token t v args => reuse dst (m token) t v (args.map m)
  | isShared dst v => isShared dst (m v)
  | set v i value => set (m v) i (m value)
  | setTag v n => setTag (m v) n

end Instr

namespace Term

/-- The variables that a terminator reads. -/
def uses : Term → List Var
  | ret v => [v]
  | jump _ args => args
  | branch c _ _ => [c]
  | switch v _ _ => [v]
  | unreachable => []

/-- Replaces the operands of a terminator. -/
def substitute (m : Var → Var) : Term → Term
  | ret v => ret (m v)
  | jump b args => jump b (args.map m)
  | branch c a b => branch (m c) a b
  | switch v cs d => switch (m v) cs d
  | unreachable => unreachable

/-- Where the edges of a terminator lead, in order, with repetitions. -/
def targets : Term → List Target
  | ret _ => []
  | jump b _ => [b]
  | branch _ a b => [a, b]
  | switch _ cs d => cs.map (·.target) ++ [d]
  | unreachable => []

/-- The blocks that a terminator leads to, each once, in edge order. -/
def successors (t : Term) : List BlockId := (t.targets.filterMap id).eraseDups

/-- Turns every edge that leads to one place to another. -/
def retarget (fromTo toTo : Target) : Term → Term
  | ret v => ret v
  | jump b args => jump (turn b) args
  | branch c a b => branch c (turn a) (turn b)
  | switch v cs d => switch v (cs.map fun c => { c with target := turn c.target }) (turn d)
  | unreachable => unreachable
where
  turn (b : Target) : Target := if b = fromTo then toTo else b

end Term

/-- The substitution of one variable for another. -/
def replaceVar (a b : Var) : Var → Var := fun v => if v = a then b else v

namespace Block

/-- The variables that the terminator of a block reads. -/
def termUses (b : Block) : List Var := (b.term.map Term.uses).getD []

/-- The variables that a block defines or reads, with repetitions. -/
def vars (b : Block) : List Var :=
  b.params ++ b.code.flatMap (fun x => x.def?.toList ++ x.uses) ++ b.termUses

def successors (b : Block) : List BlockId := (b.term.map Term.successors).getD []

def leadsTo (b : Block) (target : BlockId) : Bool :=
  (b.term.map Term.targets).any (·.contains (some target))

end Block

namespace Func

/-- Replaces operands in a whole function; every block has a terminator. -/
def substitute (f : Func) (m : Var → Var) : Except Fault Func := do
  let blocks ← f.blocks.mapM fun b =>
    match b.term with
    | some t => .ok { b with code := b.code.map (·.substitute m), term := some (t.substitute m) }
    | none => .error .terminator
  return { f with blocks }

/-- Turns edges in a whole function; every block has a terminator. -/
def retarget (f : Func) (fromTo toTo : Target) : Except Fault Func := do
  let blocks ← f.blocks.mapM fun b =>
    match b.term with
    | some t => .ok { b with term := some (t.retarget fromTo toTo) }
    | none => .error .terminator
  return { f with blocks }

-- ======== tail calls

/-- Marks the last call of a block whose result is returned, and no other. -/
def markCode (returned : Option Var) : List Instr → List Instr
  | [] => []
  | [.call dst func args _] => [.call dst func args (returned = some dst)]
  | .call dst func args _ :: rest => .call dst func args false :: markCode returned rest
  | x :: rest => x :: markCode returned rest

def returned? (b : Block) : Option Var :=
  match b.term with
  | some (.ret v) => some v
  | _ => none

/-- Marks the calls whose result is returned right away. -/
def markTailCalls (f : Func) : Func :=
  { f with blocks := f.blocks.map fun b => { b with code := markCode (returned? b) b.code } }

end Func

end RefCount.Ir
