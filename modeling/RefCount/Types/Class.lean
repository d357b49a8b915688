/-
Which types need counting. A scalar holds no reference; a definite reference
is one; a possible reference is known only when a type variable or an
unresolved alias is. Tuples and aliases are as their parts, and a type that
contains itself through them is taken for a reference.

A table answers queries and remembers answers. While a type is being
classified, asking for it again gives a provisional answer, and every answer
that rests on it is provisional too: it is remembered only once the type it
rests on is done. `low` is the least depth of a type in progress that an
answer rests on.
-/
import RefCount.Types.Walk

namespace RefCount

/-- Whether values of a type are references. -/
inductive Class where
  | scalar
  | possibleRef
  | definiteRef
  deriving DecidableEq, Repr, Inhabited

namespace Class

/-- The order of the classes. -/
def rank : Class → Nat
  | scalar => 0
  | possibleRef => 1
  | definiteRef => 2

/-- The greater of two classes. -/
def join (a b : Class) : Class := if a.rank < b.rank then b else a

/-- Whether values are counted: a possible reference is, like a definite
one. -/
def needsCount (c : Class) : Bool := c ≠ scalar

def text : Class → String
  | scalar => "scalar"
  | possibleRef => "possible_ref"
  | definiteRef => "definite_ref"

end Class

/-- Why a type has no class. -/
inductive ClassError where
  | unknown (id : TypeId)
  /-- An error about a part of a type with this name. -/
  | inside (name : String) (error : ClassError)
  deriving DecidableEq, Repr, Inhabited

/-- The wording of a class error; an empty name is left out. -/
def ClassError.message : ClassError → String
  | unknown id => "type " ++ toString id ++ ": unknown type"
  | inside name e => (if name.isEmpty then "" else name ++ ": ") ++ e.message

namespace Class

/-- The answers that are remembered, and the types in progress with their
depths, the innermost first. -/
structure Table where
  memo : List (TypeId × Class)
  stack : List (TypeId × Nat)
  deriving DecidableEq, Repr, Inhabited

namespace Table

/-- The table before the first query. -/
def empty : Table := ⟨[], []⟩

/-- Takes a type up. -/
def enter (t : Table) (id : TypeId) : Table :=
  { t with stack := (id, t.stack.length) :: t.stack }

/-- A type is no longer in progress. -/
def leave (t : Table) (id : TypeId) : Table :=
  { t with stack := t.stack.filter (·.1 ≠ id) }

def remember (t : Table) (id : TypeId) (c : Class) : Table :=
  { t with memo := (id, c) :: t.memo }

end Table

/-- A class and the least depth of a type in progress that it rests on. -/
structure Verdict where
  kind : Class
  low : Option Nat
  deriving DecidableEq, Repr, Inhabited

/-- The lesser of two depths, none being beyond all. -/
def minLow : Option Nat → Option Nat → Option Nat
  | none, b => b
  | a, none => a
  | some a, some b => some (min a b)

/-- What two parts say together. -/
def Verdict.join (a b : Verdict) : Verdict := ⟨a.kind.join b.kind, minLow a.low b.low⟩

/-- The parts whose classes decide the class of a type; none if the type
decides by itself. -/
def parts? : TypeDef → Option (List TypeId)
  | .tuple es => some es
  | .synonym _ (some t) => some [t]
  | _ => none

/-- The class of a type that has no deciding parts. -/
def own (p : Pool) (id : TypeId) : TypeDef → Class
  | .builtin b => if b = .str then definiteRef else scalar
  | .list _ => definiteRef
  | .fn _ _ => definiteRef
  | .record _ _ => definiteRef
  | .enum _ _ => if p.isBoxed id then definiteRef else scalar
  | .tuple _ => scalar
  | .synonym _ _ => possibleRef
  | .var _ => possibleRef

/-- The outcome of a query, with the table afterwards. -/
abbrev Answer := Except ClassError Verdict × Table

/-- What the parts of a type say together with what is known so far, up to the
first that has no class. -/
def joinAll (ask : Table → TypeId → Answer) (v : Verdict) (t : Table) : List TypeId → Answer
  | [] => (.ok v, t)
  | id :: ids =>
    match ask t id with
    | (.ok w, t) => joinAll ask (v.join w) t ids
    | (.error e, t) => (.error e, t)

/-- The answer about a type that was taken up at a depth. It is remembered
unless it rests on a type further out. -/
def conclude (name : String) (depth : Nat) (id : TypeId) : Answer → Answer
  | (.error e, t) => (.error (.inside name e), t)
  | (.ok v, t) =>
    if v.low.any (· < depth) then (.ok v, t) else (.ok ⟨v.kind, none⟩, t.remember id v.kind)

/-- Classifies a type. The first argument bounds how many more types can be
taken up. -/
def classifyWithin (p : Pool) : Nat → Table → TypeId → Answer
  | 0, t, id => (.error (.unknown id), t)
  | left + 1, t, id =>
    match t.memo.lookup id with
    | some c => (.ok ⟨c, none⟩, t)
    | none =>
      match t.stack.lookup id with
      | some depth => (.ok ⟨definiteRef, some depth⟩, t)
      | none =>
        match p.get? id with
        | none => (.error (.unknown id), t)
        | some d =>
          let (verdict, t') : Answer :=
            match parts? d with
            | none => (.ok ⟨own p id d, none⟩, t.enter id)
            | some ids => joinAll (classifyWithin p left) ⟨scalar, none⟩ (t.enter id) ids
          conclude (p.name id) t.stack.length id (verdict, t'.leave id)

def classify (p : Pool) (t : Table) (id : TypeId) : Except ClassError Class × Table :=
  let (verdict, t) := classifyWithin p (p.size + 2) t id
  (verdict.map (·.kind), t)

/-- Classifies types in order, up to the first that has no class. -/
def classifyAll (p : Pool) (t : Table) : List TypeId → Except ClassError (List Class)
  | [] => .ok []
  | id :: ids =>
    match classify p t id with
    | (.ok c, t) => (classifyAll p t ids).map (c :: ·)
    | (.error e, _) => .error e

end Class

/-- The classes of all types of a pool, by number. -/
abbrev Classes := Array Class

namespace Classes

def freeze (p : Pool) (t : Class.Table) : Except ClassError Classes :=
  (Class.classifyAll p t ((List.range p.size).map Int.ofNat)).map List.toArray

def ofPool (p : Pool) : Except ClassError Classes := freeze p .empty

def find (cs : Classes) (id : TypeId) : Except ClassError Class :=
  match (if id < 0 then none else cs[id.toNat]?) with
  | some c => .ok c
  | none => .error (.unknown id)

/-- Whether values of a type are counted; those of an unknown type are not. -/
def needsCount (cs : Classes) (id : TypeId) : Bool :=
  match cs.find id with
  | .ok c => c.needsCount
  | .error _ => false

end Classes

end RefCount
