/-
Compiling a match to a decision tree. The first row decides: if it tests
nothing its arm is taken; otherwise a column that it tests is chosen, and the
matrix is split by what stands there. An enum is switched on by its tag; a
column of integers, booleans or characters by its value; anything else is
tested against the first row's pattern, and the column stays for the rows that
may still match.
-/
import RefCount.Match.Matrix

namespace RefCount.Match

/-- Why a match has no tree. -/
inductive MatchError where
  /-- A pattern is missing. -/
  | missingPattern
  | fault (f : Fault)
  deriving DecidableEq, Repr, Inhabited

def orFault {α : Type} : Except Fault α → Except MatchError α
  | .ok a => .ok a
  | .error f => .error (.fault f)

/-- The different variants that rows test in a column, in order. -/
def testedVariants (column : List Pattern) : List Int :=
  (column.filterMap fun
    | .variant _ i _ => some i
    | _ => none).eraseDups

/-- The different values that rows test in a column, in order. -/
def testedValues (column : List Pattern) : Except Fault (List Int64) := do
  let values ← column.mapM fun
    | .lit v => return some (← switchValue v)
    | _ => return none
  return (values.filterMap id).eraseDups

def whereValue (rows : List Row) (col : Nat) (value : Int64) : Except Fault (List Row) := do
  let rows ← rows.mapM fun r => do
    match ← r.column col with
    | .wild => return some (r.splice col [])
    | .lit v => return if (← switchValue v) = value then some (r.splice col []) else none
    | _ => return none
  return rows.filterMap id

/-- Whether a column has only wildcards and literals. -/
def onlyLiterals (column : List Pattern) : Bool :=
  column.all fun
    | .wild => true
    | .lit _ => true
    | _ => false

def isSwitchable : Literal → Bool
  | .int _ => true
  | .bool _ => true
  | .char _ => true
  | _ => false

/-- How the column of a matrix is split. -/
inductive Split where
  | onTag (variants : Nat)
  | onFields
  | onValue
  | byTest (test : Test)
  deriving Repr

/-- The split for a column whose first pattern and shape of type are given. -/
def splitOf (shape : TypeDef) (column : List Pattern) (first : Pattern) :
    Except MatchError Split :=
  match first with
  | .variant _ _ _ =>
    match shape with
    | .enum _ _ => .ok (.onTag shape.variants.length)
    | _ => .ok .onFields
  | .lit v => .ok (if onlyLiterals column && isSwitchable v then .onValue else .byTest (.lit v))
  | .range low high => .ok (.byTest (.range low high))
  | _ => .error .missingPattern

def occurrenceAt (occs : List Occurrence) (col : Nat) : Except MatchError Occurrence :=
  match occs[col]? with
  | some o => .ok o
  | none => .error (.fault .index)

/-- What stands at an occurrence, behind aliases. -/
def shapeAt (pool : Pool) (occ : Occurrence) : Except MatchError TypeDef :=
  match pool.shape? occ.type with
  | some t => .ok t
  | none => .error (.fault .type)

/-- The types of the fields of a variant; none if there is no such variant. -/
def fieldTypes (pool : Pool) (occ : Occurrence) (variant : Int) : List TypeId :=
  (pool.fields occ.type variant).toOption.getD []

/-- Compiles a matrix, in at most so many steps. `guarded` says which arms
have a guard. -/
def compileWithin (pool : Pool) (guarded : List Bool) :
    Nat → List Row → List Occurrence → Except MatchError Tree
  | 0, _, _ => .error (.fault .limit)
  | steps + 1, rows, occs => do
    let rows ← orFault (normalize rows occs)
    match rows with
    | [] => return .fail
    | first :: rest =>
      match ← orFault (pickColumn rows) with
      | none =>
        if guarded.getD first.arm false then
          return .leaf first.arm first.bindings (some (← compileWithin pool guarded steps rest occs))
        else return .leaf first.arm first.bindings none
      | some col =>
        let occ ← occurrenceAt occs col
        let shape ← shapeAt pool occ
        let column ← orFault (rows.mapM (·.column col))
        let pattern ← orFault (first.column col)
        match ← splitOf shape column pattern with
        | .onFields =>
          let types := fieldTypes pool occ 0
          let rows ← orFault (specialize rows col types.length 0)
          compileWithin pool guarded steps rows (expandOccurrences occs col occ 0 types)
        | .onTag count =>
          let tested := testedVariants column
          let cases ← tested.mapM fun variant => do
            let types := fieldTypes pool occ variant
            let rows ← orFault (specialize rows col types.length variant)
            let tree ← compileWithin pool guarded steps rows
              (expandOccurrences occs col occ variant types)
            return (Int64.ofInt variant, tree)
          if tested.length = count then return .switch occ true cases none
          else
            let rows ← orFault (defaults rows col)
            let tree ← compileWithin pool guarded steps rows (splice occs col [])
            return .switch occ true cases (some tree)
        | .onValue =>
          let tested ← orFault (testedValues column)
          let cases ← tested.mapM fun value => do
            let rows ← orFault (whereValue rows col value)
            let tree ← compileWithin pool guarded steps rows (splice occs col [])
            return (value, tree)
          if occ.type = .bool && tested.length = 2 then return .switch occ false cases none
          else
            let rows ← orFault (defaults rows col)
            let tree ← compileWithin pool guarded steps rows (splice occs col [])
            return .switch occ false cases (some tree)
        | .byTest test =>
          let holds ← orFault (whereHolds rows col pattern)
          let fails ← orFault (whereFails rows col pattern)
          let thenTree ← compileWithin pool guarded steps holds occs
          let elseTree ← compileWithin pool guarded steps fails occs
          return .test occ test thenTree elseTree

/-- The matrix of a match: a row for each arm, and one column. -/
def rowsOf (patterns : List Pattern) : List Row :=
  patterns.zipIdx.map fun (p, i) => ⟨[p], [], i⟩

/-- The decision tree of a match on a value of a type. `guarded` says which
arms have a guard. -/
def compile (pool : Pool) (type : TypeId) (patterns : List Pattern) (guarded : List Bool) :
    Except MatchError Tree :=
  let rows := rowsOf patterns
  compileWithin pool guarded (matrixWeight rows + 1) rows [⟨[], type⟩]

end RefCount.Match
