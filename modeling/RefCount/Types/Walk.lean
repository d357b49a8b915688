/-
Walks over the type graph: what an alias stands for, what the fields of a type
are, and which types a set of types mentions. Aliases may be unresolved or
cyclic, and types may mention each other in cycles: a chain of aliases is
followed for no more steps than there are types, and the walk over what types
mention looks into each type once.
-/
import RefCount.Types.Pool

namespace RefCount.Pool

-- ======== aliases

/-- The first type that is no alias on the chain from a type, followed for at
most so many steps. -/
def underlyingWithin (p : Pool) : Nat → TypeId → TypeId
  | 0, _ => .none
  | steps + 1, id =>
    match p.get? id with
    | none => .none
    | some (.synonym _ none) => .none
    | some (.synonym _ (some target)) => p.underlyingWithin steps target
    | some _ => id

/-- The first type that is no alias on the chain from a type; there is none if
the chain is unresolved, leaves the pool or is cyclic. -/
def underlying (p : Pool) (id : TypeId) : TypeId := p.underlyingWithin (p.size + 1) id

/-- What a type is behind its aliases. -/
def shape? (p : Pool) (id : TypeId) : Option TypeDef := p.get? (p.underlying id)

/-- Whether values of a type are counted heap records with a tag and fields:
records are, and enums with a field in some variant. -/
def isBoxed (p : Pool) (id : TypeId) : Bool :=
  match p.shape? id with
  | some (.record _ _) => true
  | some (.enum _ (some vs)) => vs.any fun v => !v.fields.isEmpty
  | _ => false

-- ======== fields

/-- The element of a list at an index that may be negative. -/
def at? {α : Type} (xs : List α) (i : Int) : Option α :=
  if i < 0 then none else xs[i.toNat]?

/-- The types of the fields of a variant. A tuple has one variant. -/
def fields (p : Pool) (id : TypeId) (variant : Int) : Except PoolError (List TypeId) :=
  match p.shape? id with
  | none => .error (.notAggregate (p.name id))
  | some (.tuple es) =>
    if variant = 0 then .ok es else .error (.noVariant (p.name id) variant)
  | some t =>
    match at? t.variants variant with
    | some v => .ok (v.fields.map (·.type))
    | none => .error (.noVariant (p.name id) variant)

def variantIndex? (p : Pool) (id : TypeId) (name : String) : Option Nat :=
  (p.shape? id).bind fun t => t.variants.findIdx? (·.name = name)

/-- The index of the first field with a name. There is no answer for a
negative variant of a known type. -/
def fieldIndex? (p : Pool) (id : TypeId) (variant : Int) (name : String) :
    Except Fault (Option Nat) :=
  match p.shape? id with
  | none => .ok none
  | some t =>
    if variant < 0 then .error .index
    else .ok ((at? t.variants variant).bind fun v => v.fields.findIdx? (·.name = name))

-- ======== reachability

/-- Marks the types that waiting ones mention, directly or not, with those
themselves. A type may wait more than once, and is looked into once. -/
def mark (p : Pool) (seen : Array Bool) : List TypeId → Array Bool
  | [] => seen
  | id :: waiting =>
    match p.get? id with
    | none => p.mark seen waiting
    | some t =>
      if seen[id.toNat]? = some false then
        p.mark (seen.setIfInBounds id.toNat true) (t.mentions.reverse ++ waiting)
      else p.mark seen waiting
termination_by waiting => (seen.count false, waiting.length)
decreasing_by
  · exact Prod.Lex.right _ (Nat.lt_succ_self _)
  · obtain ⟨hlt, hfalse⟩ := Array.getElem?_eq_some_iff.1 ‹seen[id.toNat]? = some false›
    have hmem : 0 < seen.count false := Array.count_pos_iff.2 (hfalse ▸ Array.getElem_mem hlt)
    refine Prod.Lex.left _ _ ?_
    rw [Array.setIfInBounds_def, dif_pos hlt, Array.count_set hlt, hfalse]
    rw [if_pos (by decide), if_neg (by decide)]
    omega
  · exact Prod.Lex.right _ (Nat.lt_succ_self _)

/-- The known types that are mentioned by the given ones, directly or not,
with those themselves, in order of their numbers. -/
def reachable (p : Pool) (roots : List TypeId) : List TypeId :=
  let seen := p.mark (Array.replicate p.size false) roots
  ((List.range p.size).filter (seen.getD · false)).map Int.ofNat

end RefCount.Pool
