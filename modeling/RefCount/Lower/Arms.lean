/-
Code of a decision tree. Positions inside the matched value are projected
where they are first needed on a path, and known from there on. Each arm is
given as code that depends on the variables of its names; an arm's code is
placed once for every leaf that selects it.
-/
import RefCount.Lower.Build

namespace RefCount.Lower

open Ir Match

/-- The variables in scope, the innermost first. -/
abbrev Scope := List (String × Var)

/-- The code of an arm, in a scope with its names. -/
structure ArmCode where
  guard : Option (Scope → Build Value)
  body : Scope → Build Value

instance : Inhabited ArmCode := ⟨⟨none, fun _ => return none⟩⟩

/-- The variables of the positions that are known on a path. -/
abbrev Known := List (List Step × Var)

/-- The variable of a position, given by its steps from the last to the first,
and what is known afterwards. The positions on the way to it are projected
too, if need be, without a type of their own. -/
def positionVar (known : Known) (type : TypeId) : List Step → Build (Var × Known)
  | [] =>
    match known.lookup [] with
    | some v => return (v, known)
    | none => throw (.fault .variable)
  | last :: up =>
    match known.lookup (last :: up) with
    | some v => return (v, known)
    | none => do
      let (parent, known) ← positionVar known .unit up
      let v ← define type fun v => .project v parent last.variant last.field
      return (v, (last :: up, v) :: known)

/-- The variable of an occurrence, and what is known afterwards. -/
def occurrenceVar (known : Known) (occ : Occurrence) : Build (Var × Known) :=
  positionVar known occ.type occ.path.reverse

/-- The variables of names, added to a scope. -/
def bindAll (known : Known) (scope : Scope) : List Binding → Build (Scope × Known)
  | [] => return (scope, known)
  | b :: rest => do
    let (v, known) ← occurrenceVar known b.occurrence
    bindAll known ((b.name, v) :: scope) rest

def condition (v : Var) : Test → Build Var
  | .lit value => do
    let c ← define (← typeOf v) fun c => .lit c value
    define .bool fun r => .prim r "eq" [v, c]
  | .range low high => do
    let lo ← define .int fun c => .lit c (.int low)
    let above ← define .bool fun r => .prim r "le" [lo, v]
    let hi ← define .int fun c => .lit c (.int high)
    let below ← define .bool fun r => .prim r "le" [v, hi]
    define .bool fun r => .prim r "and" [above, below]

/-- The variable that a switch looks at. -/
def switchVar (onTag : Bool) (v : Var) : Build Var :=
  if onTag then define .int fun t => .tag t v else return v

mutual

/-- The code of a tree from the current block on, and its exits. -/
def emitTree (arms : List ArmCode) (scope : Scope) : Tree → Known → Build (List Exit)
  | .fail, _ => do
    finish .unreachable
    return []
  | .leaf arm bindings next, known => do
    let (scope', known) ← bindAll known scope bindings
    let code := arms.getD arm default
    match code.guard with
    | none => exitWith (← code.body scope')
    | some guard =>
      match ← guard scope' with
      | none => return []
      | some g =>
        let bodyBlock ← newBlock
        let elseBlock ← newBlock
        finish (.branch g (some bodyBlock) (some elseBlock))
        enter elseBlock
        let others ← emitNext arms scope next known
        enter bodyBlock
        return others ++ (← exitWith (← code.body scope'))
  | .switch occ onTag cases default, known => do
    let (v, known) ← occurrenceVar known occ
    let v ← switchVar onTag v
    let source := (← get).current
    let targets ← cases.mapM fun (value, _) => return Case.mk value (some (← newBlock))
    let otherwise ← newDefault default
    endBlock source (.switch v targets otherwise)
    let exits ← emitCases arms scope cases (targets.map (·.target)) known
    return exits ++ (← emitDefault arms scope default otherwise known)
  | .test occ test thenTree elseTree, known => do
    let (v, known) ← occurrenceVar known occ
    let c ← condition v test
    let thenBlock ← newBlock
    let elseBlock ← newBlock
    finish (.branch c (some thenBlock) (some elseBlock))
    enter thenBlock
    let exits ← emitTree arms scope thenTree known
    enter elseBlock
    return exits ++ (← emitTree arms scope elseTree known)
where
  /-- A block for the default of a switch. -/
  newDefault : Option Tree → Build Target
    | none => return none
    | some _ => return some (← newBlock)

/-- The code where a guard fails. -/
def emitNext (arms : List ArmCode) (scope : Scope) : Option Tree → Known → Build (List Exit)
  | none, _ => do
    finish .unreachable
    return []
  | some t, known => emitTree arms scope t known

/-- The code of the cases of a switch, each in its block. -/
def emitCases (arms : List ArmCode) (scope : Scope) :
    List (Int64 × Tree) → List Target → Known → Build (List Exit)
  | (_, t) :: cases, some b :: targets, known => do
    enter b
    let exits ← emitTree arms scope t known
    return exits ++ (← emitCases arms scope cases targets known)
  | _, _, _ => return []

/-- The code of the default of a switch. -/
def emitDefault (arms : List ArmCode) (scope : Scope) :
    Option Tree → Target → Known → Build (List Exit)
  | some t, some b, known => do
    enter b
    emitTree arms scope t known
  | _, _, _ => return []

end

end RefCount.Lower
