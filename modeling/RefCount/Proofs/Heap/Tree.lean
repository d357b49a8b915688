/-
What values denote. A value unfolds to a tree: every node has a label, and the
nodes below it are the elements of a tuple or the fields of an object. Counts
and addresses do not show in it, and neither do aliases of types.

A heap may be cyclic, so a tree need not end. It is given by what stands at
the end of each path, a path being the numbers of the children to follow from
the root.

# What trees depend on

The tree of a value depends on the objects that its references reach and on
nothing else. So it stays the same as long as those objects do
(`treeOf_keeps`).
-/
import Mathlib
import RefCount.Proofs.Heap.Exact

namespace RefCount.Machine

open List

-- ======== trees

/-- What stands at a node: a plain value, or a tuple or an object with the
number of its children. -/
inductive Label where
  | unit
  | int (n : Int64)
  | float (x : Float)
  | tuple (size : Nat)
  | object (type : TypeId) (variant : Int) (str : Bytes) (func : String) (size : Nat)

namespace Label

/-- Whether a node is an object. -/
def isObject : Label → Bool
  | object .. => true
  | _ => false

/-- The number of children of a node. -/
def size : Label → Nat
  | tuple n => n
  | object _ _ _ _ n => n
  | _ => 0

end Label

/-- A tree, as what stands at the end of each path. -/
abbrev Tree := List Nat → Option Label

namespace Tree

/-- What stands at the root. -/
def label? (t : Tree) : Option Label := t []

/-- The tree below a root at a place. -/
def child (t : Tree) (i : Nat) : Tree := fun path => t (i :: path)

/-- A root with trees below it. -/
def node (l : Label) (ts : List Tree) : Tree
  | [] => some l
  | i :: path => (ts[i]?).bind (· path)

/-- A root with nothing below it. -/
def leaf (l : Label) : Tree := node l []

/-- The trees below a root. -/
def children (t : Tree) (n : Nat) : List Tree := (List.range n).map t.child

/-- A tree that ends and has no object in it. -/
inductive Bare : Tree → Prop
  | mk {t : Tree} {l : Label} (hl : t.label? = some l) (hl' : l.isObject = false)
      (hc : ∀ i < l.size, Bare (t.child i)) : Bare t

variable {l : Label} {ts : List Tree} {t : Tree}

@[simp] theorem label_node : (node l ts).label? = some l := rfl
@[simp] theorem label_leaf : (leaf l).label? = some l := rfl

theorem child_node {i : Nat} (h : ts[i]? = some t) : (node l ts).child i = t := by
  funext path
  simp [child, node, h]

theorem children_node : (node l ts).children ts.length = ts := by
  refine ext_getElem? fun i => ?_
  by_cases hi : i < ts.length
  · have hget : ts[i]? = some ts[i] := getElem?_eq_getElem hi
    rw [hget]
    simp [children, hi, child_node hget]
  · simp [children, hi]

end Tree

-- ======== trees of values

/-- What stands at the root of the tree of a value. -/
def labelOf (pool : Pool) (h : Heap) : Value → Option Label
  | .unit => some .unit
  | .int n => some (.int n)
  | .float x => some (.float x)
  | .tuple elems => some (.tuple elems.length)
  | .ref p => (h.obj? p).map fun o =>
    .object (pool.underlying o.type) o.variant o.str o.func o.fields.length

/-- The elements of a tuple, or the fields of an object. -/
def partsOf (h : Heap) : Value → List Value
  | .tuple elems => elems
  | .ref p => ((h.obj? p).map (·.fields)).getD []
  | _ => []

/-- The tree of a value. -/
def treeOf (pool : Pool) (h : Heap) (v : Value) : Tree
  | [] => labelOf pool h v
  | i :: path => ((partsOf h v)[i]?).bind fun u => treeOf pool h u path

variable {pool : Pool} {h h' : Heap} {v u : Value} {A : Multiset Address}

@[simp] theorem label_treeOf : (treeOf pool h v).label? = labelOf pool h v := by
  rw [Tree.label?, treeOf]

/-- The tree below the root of a value. -/
theorem child_treeOf {i : Nat} (hu : (partsOf h v)[i]? = some u) :
    (treeOf pool h v).child i = treeOf pool h u := by
  funext path
  rw [Tree.child, treeOf, hu]
  rfl

/-- A value is its root and its parts. -/
theorem treeOf_eq_node {l : Label} (hl : labelOf pool h v = some l) :
    treeOf pool h v = .node l ((partsOf h v).map (treeOf pool h)) := by
  funext path
  cases path with
  | nil => rw [treeOf, hl, Tree.node]
  | cons i path =>
    rw [treeOf, Tree.node, getElem?_map]
    cases (partsOf h v)[i]? <;> rfl

@[simp] theorem treeOf_unit : treeOf pool h .unit = .leaf .unit := treeOf_eq_node rfl
@[simp] theorem treeOf_int (n : Int64) : treeOf pool h (.int n) = .leaf (.int n) :=
  treeOf_eq_node rfl
@[simp] theorem treeOf_float (x : Float) : treeOf pool h (.float x) = .leaf (.float x) :=
  treeOf_eq_node rfl
theorem treeOf_tuple (vs : List Value) :
    treeOf pool h (.tuple vs) = .node (.tuple vs.length) (vs.map (treeOf pool h)) :=
  treeOf_eq_node rfl

theorem treeOf_ref {p : Address} {o : Object} (ho : h.obj? p = some o) :
    treeOf pool h (.ref p) =
      .node (.object (pool.underlying o.type) o.variant o.str o.func o.fields.length)
        (o.fields.map (treeOf pool h)) := by
  rw [treeOf_eq_node (v := .ref p) (l := _) (by rw [labelOf, ho]; rfl)]
  rw [partsOf, ho]
  rfl

-- ======== reach

/-- What a value holds is reached from some references. -/
def Within (h : Heap) (A : Multiset Address) (v : Value) : Prop :=
  ∀ p ∈ v.refs, h.Reach A p

theorem Within.mono {B : Multiset Address} (hv : Within h A v) (hA : A ≤ B) :
    Within h B v := fun p hp => (hv p hp).mono hA

theorem Within.keeps (hv : Within h A v) (hk : Heap.Keeps A h h') : Within h' A v :=
  fun p hp => (hv p hp).keeps hk

theorem within_refs : Within h v.refs v := fun _ hp => .root hp

/-- The parts of a value hold only what it reaches. -/
theorem Within.part (hv : Within h A v) (hu : u ∈ partsOf h v) : Within h A u := by
  intro p hp
  cases v with
  | tuple elems =>
    refine hv p ?_
    rw [Value.refs_tuple, Value.mem_refsAll]
    exact ⟨u, hu, hp⟩
  | ref q =>
    refine .field (hv q (by simp)) ?_
    rw [Heap.held, Value.mem_refsAll]
    exact ⟨u, hu, hp⟩
  | _ => exact absurd hu not_mem_nil

/-- Parts stay the same as long as what the value reaches does. -/
theorem partsOf_keeps (hv : Within h A v) (hk : Heap.Keeps A h h') :
    partsOf h' v = partsOf h v := by
  cases v with
  | ref p => rw [partsOf, partsOf, hk p (hv p (by simp))]
  | _ => rfl

/-- A tree stays the same as long as what the value reaches does. -/
theorem treeOf_keeps (hv : Within h A v) (hk : Heap.Keeps A h h') :
    treeOf pool h' v = treeOf pool h v := by
  funext path
  induction path generalizing v with
  | nil =>
    rw [treeOf, treeOf]
    cases v with
    | ref p => rw [labelOf, labelOf, hk p (hv p (by simp))]
    | _ => rfl
  | cons i path ih =>
    rw [treeOf, treeOf, partsOf_keeps hv hk]
    cases hu : (partsOf h v)[i]? with
    | none => rfl
    | some u => exact ih (hv.part (mem_of_getElem? hu))

-- ======== values without references

mutual

/-- A value whose tree has no objects holds no references, unless they
dangle. -/
theorem refs_of_bare : ∀ (v : Value), (∀ p ∈ v.refs, h.Live p) →
    (treeOf pool h v).Bare → v.refs = 0
  | .ref p, hlive, hp => by
    obtain ⟨o, ho⟩ := Option.isSome_iff_exists.1 (hlive p (by simp))
    have hl : (treeOf pool h (.ref p)).label? = some (.object (pool.underlying o.type)
        o.variant o.str o.func o.fields.length) := by
      rw [label_treeOf, labelOf, ho]
      rfl
    obtain ⟨hl', hobj, -⟩ := hp
    rw [hl] at hl'
    cases hl'
    cases hobj
  | .tuple elems, hlive, hp => by
    rw [Value.refs_tuple]
    refine refsAll_of_bare elems (by simpa using hlive) fun v hv => ?_
    obtain ⟨i, hi⟩ := mem_iff_getElem?.1 hv
    rw [← child_treeOf (v := .tuple elems) hi]
    obtain ⟨hl, -, hc⟩ := hp
    rw [label_treeOf, labelOf] at hl
    cases hl
    exact hc i (List.getElem?_eq_some_iff.1 hi).1
  | .unit, _, _ => Value.refs_unit
  | .int n, _, _ => Value.refs_int n
  | .float x, _, _ => Value.refs_float x

theorem refsAll_of_bare : ∀ (vs : List Value), (∀ p ∈ Value.refsAll vs, h.Live p) →
    (∀ v ∈ vs, (treeOf pool h v).Bare) → Value.refsAll vs = 0
  | [], _, _ => Value.refsAll_nil
  | v :: vs, hlive, hp => by
    rw [Value.refsAll_cons] at hlive ⊢
    rw [refs_of_bare v (fun p h => hlive p (Multiset.mem_add.2 (.inl h)))
        (hp v mem_cons_self),
      refsAll_of_bare vs (fun p h => hlive p (Multiset.mem_add.2 (.inr h)))
        (fun u hu => hp u (mem_cons_of_mem v hu)), add_zero]

end

end RefCount.Machine
