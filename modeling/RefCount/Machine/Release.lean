/-
Taking and releasing references. A reference to a tuple is a reference to all
that it holds. When the last reference to an object goes, the object is freed
and what it holds is released, and so on: what is still to be released waits
in a list. Freeing uses up a live object, and everything else shortens the
list, so this comes to an end on any heap, cyclic or not.
-/
import RefCount.Machine.Basic

namespace RefCount.Machine

-- ======== retain

mutual

/-- Counts one more reference to all that a value holds. -/
def retain : Value → Run Unit
  | .ref p => do
    let c ← cellAt p
    modifyHeap (·.setCell p c.more)
  | .tuple elems => retainAll elems
  | _ => return ()

/-- Counts one more reference to all that values hold. -/
def retainAll : List Value → Run Unit
  | [] => return ()
  | v :: vs => do
    retain v
    retainAll vs

end

-- ======== release

/-- Something to release: a value, or a field that a descriptor lists and an
object lacks. -/
inductive Task where
  | value (v : Value)
  | lost (type : TypeId) (index count : Nat)
  deriving Inhabited

/-- The number of values in a task. -/
def Task.weight : Task → Nat
  | value v => v.weight
  | lost _ _ _ => 1

/-- The number of values in tasks. -/
def workWeight : List Task → Nat
  | [] => 0
  | t :: ts => t.weight + workWeight ts

theorem workWeight_append (ts us : List Task) :
    workWeight (ts ++ us) = workWeight ts + workWeight us := by
  induction ts with
  | nil => simp [workWeight]
  | cons t ts ih => simp [workWeight, ih, Nat.add_assoc]

theorem workWeight_values (vs : List Value) :
    workWeight (vs.map Task.value) = Value.weightOfAll vs := by
  induction vs with
  | nil => simp [workWeight, Value.weightOfAll]
  | cons v vs ih => simp [workWeight, Task.weight, Value.weightOfAll, ih]

/-- The descriptor that says what to release of an object. A list has none of
use: it holds its elements as fields. -/
def descriptor? (env : Env) (o : Object) : Option Drop.Descriptor :=
  match env.drops with
  | none => none
  | some table =>
    let found := if o.func.isEmpty then table.types.lookup o.type else table.envs.lookup o.func
    found.filter fun d =>
      match d.layout with
      | .list _ => false
      | _ => true

/-- What an object holds and has to be released with it. -/
def tasksOf (env : Env) (o : Object) : List Task :=
  match descriptor? env o with
  | none => o.fields.map .value
  | some d => (d.release o.variant).map fun f =>
    match o.fields[f.index]? with
    | some v => .value v
    | none => .lost o.type f.index o.fields.length

/-- Takes away a reference, and gives the object if it was the last. -/
def dropRef (p : Address) : Run (Option Object) := do
  let c := (← cellAt p).less
  modifyHeap (·.setCell p c)
  return c.lost?

/-- Frees the object at an address. -/
def freeAt (p : Address) : Run Unit := do
  match (← getHeap).cell? p with
  | none => throw (.fault .address)
  | some c => modifyHeap (·.freeCell p c)

/-- Releases what waits, freeing at most so many objects. -/
def releaseWork (env : Env) (budget : Nat) (work : List Task) : Run Unit :=
  match work with
  | [] => return ()
  | .lost t i n :: _ => throw (.dropField (env.pool.name t) i n)
  | .value .unit :: rest => releaseWork env budget rest
  | .value (.int _) :: rest => releaseWork env budget rest
  | .value (.float _) :: rest => releaseWork env budget rest
  | .value (.tuple elems) :: rest => releaseWork env budget (elems.map .value ++ rest)
  | .value (.ref p) :: rest => do
    match ← dropRef p with
    | none => releaseWork env budget rest
    | some o =>
      match budget with
      | 0 => throw (.fault .limit)
      | budget + 1 =>
        freeAt p
        releaseWork env budget (tasksOf env o ++ rest)
termination_by (budget, workWeight work)
decreasing_by
  all_goals
    first
      | (apply Prod.Lex.right
         simp [workWeight, Task.weight, Value.weight, workWeight_append, workWeight_values])
      | (apply Prod.Lex.left
         omega)

/-- Releases values in order. No more objects can be freed than there are
cells. -/
def releaseAll (env : Env) (vs : List Value) : Run Unit := do
  releaseWork env (← getHeap).cells.size (vs.map .value)

def release (env : Env) (v : Value) : Run Unit := releaseAll env [v]

/-- Releases the arguments that a function has only borrowed, once the caller
is done with them. -/
def releaseBorrowed (env : Env) (name : String) (args : List Value) : Run Unit :=
  let modes := (env.sigs.find? name).getD []
  args.zipIdx.forM fun (a, i) =>
    if modes[i]? = some .borrowed then inContext (.inArg i) (release env a) else return ()

end RefCount.Machine
