/-
Which parameters a function can borrow. A candidate is a counted parameter of
a function that is never made a closure: all candidates start as borrowed, and
one becomes owned once an alias of it escapes, that is, is stored, captured,
returned, handed to another block, or passed where a reference is taken over.
An owned parameter can make others escape, so this goes in rounds; every round
but the last makes a candidate owned, so there are at most as many rounds as
candidates, and one more.
-/
import RefCount.Borrow.Roots
import RefCount.Types.Class

namespace RefCount.Borrow

open Ir

-- ======== escape

/-- Whether a call takes over the reference to an argument. Functions without
a signature do, and so do places beyond it. -/
def takesOver (modes : Option (List Mode)) (i : Nat) : Bool :=
  match modes.bind (·[i]?) with
  | some .borrowed => false
  | _ => true

/-- The operands through which values escape an instruction. -/
def escapesInstr (sigs : Signatures) : Instr → List Var
  | .construct _ _ _ args => args
  | .reuse _ _ _ _ args => args
  | .closure _ _ captures => captures
  | .callClosure _ _ args => args
  | .set _ _ value => [value]
  | .call _ func args _ =>
    args.zipIdx.filterMap fun (a, i) => if takesOver (sigs.find? func) i then some a else none
  | _ => []

/-- The operands through which values escape a terminator. -/
def escapesTerm : Term → List Var
  | .ret v => [v]
  | .jump _ args => args
  | _ => []

/-- The operands through which values escape a block. -/
def escapesBlock (sigs : Signatures) (b : Block) : List Var :=
  b.code.flatMap (escapesInstr sigs) ++ (b.term.map escapesTerm).getD []

/-- The parameters of which an alias escapes. A variable that is not counted
carries no reference, so it makes nothing escape. -/
def escaping (f : Func) (sigs : Signatures) (cls : Classes) : Except Fault BitSet := do
  let roots ← Roots.ofFunc f
  let found ← (f.blocks.toList.flatMap (escapesBlock sigs)).filterMapM fun v => do
    let root ← roots.get v
    return if cls.needsCount (f.typeOf v) then root else none
  return .ofList found

-- ======== inference

/-- The functions that are made closures. -/
def closureTargets (fs : List Func) : List String :=
  fs.flatMap fun f => f.instrs.filterMap fun
    | .closure _ func _ => some func
    | _ => none

def startModes (targets : List String) (cls : Classes) (f : Func) : List Mode :=
  f.params.map fun p =>
    if cls.needsCount p.type && !targets.contains f.name then .borrowed else .owned

/-- The modes of a function after a round, whether one became owned, and how
many counted parameters are owned. Modes may be those of another function of
the same name, but there must be enough. -/
def promote (cls : Classes) (escaped : BitSet) (params : List Param) (modes : List Mode) :
    Except Fault (List Mode × Bool × Nat) :=
  match params, modes with
  | [], ms => .ok (ms, false, 0)
  | _ :: _, [] => .error .signature
  | p :: ps, m :: ms => do
    let promoted := m = .borrowed && escaped.contains p.var
    let m := if promoted then .owned else m
    let (ms, changed, owned) ← promote cls escaped ps ms
    return (m :: ms, promoted || changed,
      owned + if m = .owned && cls.needsCount p.type then 1 else 0)

/-- One round over the functions. What is found for one function is seen by
the next. -/
def inferRound (fs : List Func) (cls : Classes) (sigs : Signatures) :
    Except Fault (Signatures × Bool × Nat) :=
  fs.foldlM
    (fun (sigs, changed, owned) f => do
      let escaped ← escaping f sigs cls
      let (modes, c, n) ← promote cls escaped f.params ((sigs.find? f.name).getD [])
      return (sigs.put f.name modes, changed || c, owned + n))
    (sigs, false, 0)

/-- Why there is no answer. -/
inductive InferError where
  | noFixpoint (iterations candidates : Nat)
  | fault (f : Fault)
  deriving DecidableEq, Repr, Inhabited

/-- The wording of an error; a fault has none. -/
def InferError.message : InferError → String
  | noFixpoint n c => "after " ++ toString n ++ " iterations, " ++ toString c ++
      " candidates: borrow inference did not reach fixpoint"
  | fault _ => ""

/-- The modes found, and the number of owned counted parameters after each
round. -/
structure Inferred where
  sigs : Signatures
  history : List Nat
  deriving Repr, Inhabited

/-- Rounds until nothing changes, at most so many. `rounds` counts down from
one more than the number of candidates. -/
def inferRounds (fs : List Func) (cls : Classes) (candidates : Nat) :
    Nat → Signatures → List Nat → Except InferError Inferred
  | 0, _, _ => .error (.noFixpoint (candidates + 1) candidates)
  | rounds + 1, sigs, history =>
    match inferRound fs cls sigs with
    | .error e => .error (.fault e)
    | .ok (sigs, changed, owned) =>
      let history := history ++ [owned]
      if changed then inferRounds fs cls candidates rounds sigs history
      else .ok ⟨sigs, history⟩

/-- The modes of the parameters of all functions. Functions of the host keep
the modes they are declared with. -/
def infer (fs : List Func) (externs : Signatures) (cls : Classes) : Except InferError Inferred :=
  let starts := fs.map fun f => (f.name, startModes (closureTargets fs) cls f)
  let candidates := (starts.flatMap (·.2)).count .borrowed
  let sigs := starts.foldl (fun s (name, modes) => s.put name modes) externs
  inferRounds fs cls candidates (candidates + 1) sigs []

/-- A function with modes written into its parameters. -/
def applyModes (sigs : Signatures) (f : Func) : Except Fault Func := do
  let modes := (sigs.find? f.name).getD []
  if modes.length < f.params.length then throw .signature
  return { f with params := f.params.zipWith (fun p m => { p with mode := m }) modes }

end RefCount.Borrow
