/-
Matrices of patterns. A row holds the patterns that are still to be tested for
one choice of alternatives of one arm, a column for each occurrence. A normal
row has only wildcards and constructor tests: names are recorded as bindings
and alternatives are rows of their own, in order.

Rows of ill-typed matches may have different lengths, so that a column may be
missing; looking at one that is gives a fault.
-/
import RefCount.Match.Tree
import RefCount.Types.Walk

namespace RefCount.Match

structure Row where
  patterns : List Pattern
  bindings : List Binding
  arm : Nat
  deriving Repr, Inhabited

-- ======== normal

mutual

/-- The choices that a pattern leaves at an occurrence: for each a wildcard or
a constructor test, and the names bound on the way. -/
def choices (occ : Occurrence) : Pattern → List (Pattern × List Binding)
  | .bind name => [(.wild, [⟨name, occ⟩])]
  | .as name p => (choices occ p).map fun (q, bs) => (q, ⟨name, occ⟩ :: bs)
  | .or ps => choicesOfAny occ ps
  | p => [(p, [])]

/-- The choices of several alternatives, in order. -/
def choicesOfAny (occ : Occurrence) : List Pattern → List (Pattern × List Binding)
  | [] => []
  | p :: ps => choices occ p ++ choicesOfAny occ ps

end

mutual

/-- Whether a pattern, or an alternative of it, names the value that it is
matched with. -/
def namesValue : Pattern → Bool
  | .bind _ => true
  | .as _ _ => true
  | .or ps => anyNamesValue ps
  | _ => false

def anyNamesValue : List Pattern → Bool
  | [] => false
  | p :: ps => namesValue p || anyNamesValue ps

end

/-- The normal rows of a row: its columns chosen from left to right. `done`
holds the chosen columns in reverse. In a column without an occurrence there
is no value to name. -/
def normalRows (arm : Nat) (done : List Pattern) (bindings : List Binding) :
    List Pattern → List Occurrence → Except Fault (List Row)
  | [], _ => .ok [⟨done.reverse, bindings, arm⟩]
  | p :: ps, occs => do
    if occs.isEmpty && namesValue p then throw .index
    let rows ← (choices (occs.headD default) p).mapM fun (q, bs) =>
      normalRows arm (q :: done) (bindings ++ bs) ps occs.tail
    return rows.flatten

def normalize (rows : List Row) (occs : List Occurrence) : Except Fault (List Row) := do
  return (← rows.mapM fun r => normalRows r.arm [] r.bindings r.patterns occs).flatten

-- ======== columns

/-- What a constructor test asks for. -/
inductive Head where
  | variant (index : Int)
  | lit (value : Literal)
  | range (low high : Int64)
  deriving Repr, Inhabited

/-- Whether two tests ask for the same. -/
def Head.same : Head → Head → Bool
  | variant i, variant j => i = j
  | lit a, lit b => a.same b
  | range a b, range c d => a = c && b = d
  | _, _ => false

/-- What a pattern asks for; the unit literal asks for nothing. -/
def head? : Pattern → Option Head
  | .variant _ i _ => some (.variant i)
  | .lit .unit => none
  | .lit v => some (.lit v)
  | .range a b => some (.range a b)
  | _ => none

/-- The number of different things that tests ask for. -/
def countHeads : List Head → Nat
  | [] => 0
  | h :: hs => countHeads hs + (if hs.any h.same then 0 else 1)

def isWild : Pattern → Bool
  | .wild => true
  | _ => false

def Row.column (r : Row) (col : Nat) : Except Fault Pattern :=
  match r.patterns[col]? with
  | some p => .ok p
  | none => .error .index

/-- The column to test next: of those that the first row tests the one with
the most different tests, the first of several. -/
def pickColumn (rows : List Row) : Except Fault (Option Nat) :=
  match rows with
  | [] => .ok none
  | first :: _ => do
    let best ← first.patterns.zipIdx.foldlM
      (fun (best : Option (Nat × Nat)) (p, col) => do
        if isWild p then return best
        else
          let column ← rows.mapM (·.column col)
          let n := countHeads (column.filterMap head?)
          match best with
          | some (_, m) => return (if m < n then some (col, n) else best)
          | none => return some (col, n))
      none
    return best.map (·.1)

/-- A list with the element at an index replaced by others. -/
def splice {α : Type} (xs : List α) (i : Nat) (ys : List α) : List α :=
  xs.take i ++ ys ++ xs.drop (i + 1)

/-- The row with a column replaced by others. -/
def Row.splice (r : Row) (col : Nat) (ps : List Pattern) : Row :=
  { r with patterns := Match.splice r.patterns col ps }

/-- The rows that a value of a variant leaves, with its fields as columns. -/
def specialize (rows : List Row) (col : Nat) (arity : Nat) (variant : Int) :
    Except Fault (List Row) := do
  let rows ← rows.mapM fun r => do
    match ← r.column col with
    | .variant _ i fields => return if i = variant then some (r.splice col fields) else none
    | .wild => return some (r.splice col (List.replicate arity .wild))
    | _ => return none
  return rows.filterMap id

/-- The rows that test nothing in a column, without it. -/
def defaults (rows : List Row) (col : Nat) : Except Fault (List Row) := do
  let rows ← rows.mapM fun r => do
    return if isWild (← r.column col) then some (r.splice col []) else none
  return rows.filterMap id

/-- The occurrences of the fields of a variant in place of its own. -/
def expandOccurrences (occs : List Occurrence) (col : Nat) (occ : Occurrence) (variant : Int)
    (types : List TypeId) : List Occurrence :=
  splice occs col
    (types.zipIdx.map fun (t, i) => ⟨occ.path ++ [⟨variant, (i : Int)⟩], t⟩)

-- ======== tests

def switchValue : Literal → Except Fault Int64
  | .int n => .ok n
  | .char c => .ok (Int64.ofInt c.toInt)
  | .bool b => .ok (if b then 1 else 0)
  | _ => .error .literal

/-- The range of integers that a pattern matches. -/
def interval? : Pattern → Option (Int64 × Int64)
  | .range low high => some (low, high)
  | .lit (.int n) => some (n, n)
  | .lit (.char c) => some (Int64.ofInt c.toInt, Int64.ofInt c.toInt)
  | _ => none

/-- Whether every value that the second pattern matches is matched by the
first, as far as tests tell. -/
def covers (a b : Pattern) : Bool :=
  match interval? a, interval? b with
  | some (alow, ahigh), some (blow, bhigh) => alow ≤ blow && bhigh ≤ ahigh
  | _, _ =>
    match a, b with
    | .lit v, .lit w => v.same w
    | _, _ => false

/-- Whether no value is matched by both patterns, as far as tests tell. -/
def disjoint (a b : Pattern) : Bool :=
  match interval? a, interval? b with
  | some (alow, ahigh), some (blow, bhigh) => ahigh < blow || bhigh < alow
  | _, _ =>
    match a, b with
    | .lit v, .lit w => !v.same w
    | _, _ => false

/-- The rows that may still match where a test succeeds. -/
def whereHolds (rows : List Row) (col : Nat) (test : Pattern) : Except Fault (List Row) := do
  let rows ← rows.mapM fun r => do
    let p ← r.column col
    return if isWild p then some r
      else if covers p test then some (r.splice col [.wild])
      else if disjoint p test then none
      else some r
  return rows.filterMap id

/-- The rows that may still match where a test fails. -/
def whereFails (rows : List Row) (col : Nat) (test : Pattern) : Except Fault (List Row) := do
  let rows ← rows.mapM fun r => do
    let p ← r.column col
    return if isWild p || !covers test p then some r else none
  return rows.filterMap id

-- ======== weight

mutual

/-- The number of tests that a pattern can still cause: alternatives add up,
fields multiply, and each test counts. -/
def weight : Pattern → Nat
  | .variant _ _ fields => weightOfAll fields + 1
  | .lit _ => 2
  | .range _ _ => 2
  | .as _ p => weight p
  | .or ps => weightOfAny ps
  | _ => 1

/-- The product of the weights of columns. -/
def weightOfAll : List Pattern → Nat
  | [] => 1
  | p :: ps => weight p * weightOfAll ps

/-- The sum of the weights of alternatives. -/
def weightOfAny : List Pattern → Nat
  | [] => 0
  | p :: ps => weight p + weightOfAny ps

end

/-- The weight of a matrix. Every step of the compilation lowers it. -/
def matrixWeight : List Row → Nat
  | [] => 0
  | r :: rows => weightOfAll r.patterns + matrixWeight rows

end RefCount.Match
