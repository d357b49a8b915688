/-
Which trees are of which types. A tree may go on without end, so that it is of
a type is said for all depths: down to any depth, every node is as its type
demands. A step of depth goes through an alias or below a node.

Of a type that is not known, or only as a variable or an alias of nothing, any
tree is. A closure names a function, and what it has captured is of the types
of that function's first parameters.

# Main results

Agreeing types have the same trees if they are the same behind aliases
(`Holds.fits`), and a tree of a type that is not counted has no objects
(`Holds.bare`).
-/
import Mathlib
import RefCount.Proofs.Heap.Tree
import RefCount.Proofs.Typing.Class
import RefCount.Proofs.Typing.Graph
import RefCount.Proofs.Typing.Walk

namespace RefCount

open Machine (Tree Label)

namespace Typing

variable (Θ : Typing)
variable {P : Nat → TypeId → Tree → Prop} {ts : List TypeId}

-- ======== depth

/-- What stands at the root of a tree of a built-in type. -/
def RootFits : Builtin → Option Label → Prop
  | .unit, l => l = some .unit
  | .never, _ => False
  | .float, l => ∃ x, l = some (.float x)
  | .str, l => ∃ t v s, l = some (.object t v s "" 0)
  | _, l => ∃ n, l = some (.int n)

/-- What is below a root is of given types. -/
def Below (P : TypeId → Tree → Prop) (ts : List TypeId) (t : Tree) : Prop :=
  ∀ i u, ts[i]? = some u → P u (t.child i)

/-- A tree is an object of a record or an enum with fields of the types that
its variant has. -/
def Payload (P : TypeId → Tree → Prop) (τ : TypeId) (t : Tree) : Prop :=
  ∃ v ts, t.label? = some (.object τ v [] "" ts.length) ∧
    Θ.pool.fields τ v = .ok ts ∧ Below P ts t

/-- A tree is a closure of a function that takes some types to a result. -/
def Callable (P : TypeId → Tree → Prop) (ps : List TypeId) (r : TypeId)
    (t : Tree) : Prop :=
  ∃ ty v s f k ft, t.label? = some (.object ty v s f k) ∧
    Θ.funcs.lookup f = some ft ∧ k ≤ ft.params.length ∧
    ft.params.drop k = ps ∧ ft.result = r ∧ Below P (ft.params.take k) t

/-- A tree is as a type demands at the root, and `P` tells what is of the
types that the type mentions. -/
def Root (P : TypeId → Tree → Prop) (τ : TypeId) (t : Tree) : TypeDef → Prop
  | .builtin b => RootFits b t.label?
  | .list _ => ∃ l, t.label? = some l ∧ l.isObject
  | .fn ps r => Θ.Callable P ps r t
  | .tuple es => t.label? = some (.tuple es.length) ∧ Below P es t
  | .record _ _ => Θ.Payload P τ t
  | .enum _ _ =>
    if Θ.pool.isBoxed τ then Θ.Payload P τ t else ∃ m, t.label? = some (.int m)
  | .synonym _ (some u) => P u t
  | _ => True

/-- A tree is of a type down to a depth. -/
def HoldsTo : Nat → TypeId → Tree → Prop
  | 0, _, _ => True
  | n + 1, τ, t => ∀ d, Θ.pool.get? τ = some d → Θ.Root (HoldsTo n) τ t d

/-- A tree is of a type. -/
def Holds (τ : TypeId) (t : Tree) : Prop := ∀ n, Θ.HoldsTo n τ t

variable {Θ} {τ : TypeId} {t : Tree} {d : TypeDef}

-- ======== without the depth

theorem below_forall : (∀ n, Below (P n) ts t) ↔ Below (fun τ t => ∀ n, P n τ t) ts t :=
  ⟨fun h i u hu n => h n i u hu, fun h n i u hu => h i u hu n⟩

theorem payload_forall : (∀ n, Θ.Payload (P n) τ t) ↔ Θ.Payload (fun τ t => ∀ n, P n τ t) τ t := by
  constructor
  · intro h
    obtain ⟨v, ts, hl, hts, -⟩ := h 0
    refine ⟨v, ts, hl, hts, below_forall.1 fun n => ?_⟩
    obtain ⟨v', ts', hl', hts', hb⟩ := h n
    rw [hl] at hl'
    obtain rfl : v = v' := (Label.object.inj (Option.some.inj hl')).2.1
    rw [hts] at hts'
    cases hts'
    exact hb
  · rintro ⟨v, ts, hl, hts, hb⟩ n
    exact ⟨v, ts, hl, hts, below_forall.2 hb n⟩

theorem callable_forall {ps : List TypeId} {r : TypeId} :
    (∀ n, Θ.Callable (P n) ps r t) ↔ Θ.Callable (fun τ t => ∀ n, P n τ t) ps r t := by
  constructor
  · intro h
    obtain ⟨ty, v, s, f, k, ft, hl, hft, hk, hps, hr, -⟩ := h 0
    refine ⟨ty, v, s, f, k, ft, hl, hft, hk, hps, hr, below_forall.1 fun n => ?_⟩
    obtain ⟨ty', v', s', f', k', ft', hl', hft', -, -, -, hb⟩ := h n
    rw [hl] at hl'
    obtain ⟨-, -, -, rfl, rfl⟩ := Label.object.inj (Option.some.inj hl')
    rw [hft] at hft'
    cases hft'
    exact hb
  · rintro ⟨ty, v, s, f, k, ft, hl, hft, hk, hps, hr, hb⟩ n
    exact ⟨ty, v, s, f, k, ft, hl, hft, hk, hps, hr, below_forall.2 hb n⟩

/-- A root is as its type demands down to all depths at once. -/
theorem root_forall : (∀ n, Θ.Root (P n) τ t d) ↔ Θ.Root (fun τ t => ∀ n, P n τ t) τ t d := by
  cases d with
  | fn ps r => exact callable_forall
  | tuple es =>
    exact ⟨fun h => ⟨(h 0).1, below_forall.1 fun n => (h n).2⟩,
      fun h n => ⟨h.1, below_forall.2 h.2 n⟩⟩
  | record n fs => exact payload_forall
  | enum n vs =>
    simp only [Root]
    split
    · exact payload_forall
    · exact forall_const Nat
  | synonym n target =>
    cases target with
    | none => exact forall_const Nat
    | some u => exact .rfl
  | _ => exact forall_const Nat

/-- A tree is of a type if its root is as the type demands. -/
theorem holds_iff_get : Θ.Holds τ t ↔ ∀ d, Θ.pool.get? τ = some d → Θ.Root Θ.Holds τ t d := by
  constructor
  · intro h d hd
    exact root_forall.1 fun n => h (n + 1) d hd
  · intro h n
    cases n with
    | zero => trivial
    | succ n => exact fun d hd => root_forall.2 (h d hd) n

-- ======== by the shape

/-- A type that is known by its number. -/
theorem holds_of_get (h : Θ.pool.get? τ = some d) : Θ.Holds τ t ↔ Θ.Root Θ.Holds τ t d := by
  rw [holds_iff_get]
  refine ⟨fun hd => hd d h, fun hr d' hd' => ?_⟩
  rw [h] at hd'
  cases hd'
  exact hr

section

variable (h : Θ.pool.shape? τ = some d)
include h

theorem chain_of_shape :
    Relation.ReflTransGen Θ.pool.Alias τ (Θ.pool.underlying τ) ∧ d.kind ≠ .synonym := by
  have hne : Θ.pool.underlying τ ≠ .none := by
    intro hnone
    rw [Pool.shape?, hnone] at h
    cases h
  obtain ⟨hchain, d', hd', hkind⟩ := Pool.underlyingWithin_proper rfl hne
  cases hd'.symm.trans h
  exact ⟨hchain, hkind⟩

theorem shape_ne (n : String) (target : Option TypeId) : d ≠ .synonym n target := by
  rintro rfl
  exact (chain_of_shape h).2 rfl

theorem shape_underlying :
    Θ.pool.shape? (Θ.pool.underlying τ) = some d :=
  Pool.shape_of_get h (shape_ne h)

theorem isBoxed_underlying :
    Θ.pool.isBoxed (Θ.pool.underlying τ) = Θ.pool.isBoxed τ := by
  unfold Pool.isBoxed
  rw [shape_underlying h, h]

theorem fields_underlying {v : Int} :
    Θ.pool.fields (Θ.pool.underlying τ) v = .ok ts ↔ Θ.pool.fields τ v = .ok ts := by
  unfold Pool.fields
  rw [shape_underlying h, h]
  cases d with
  | tuple es => by_cases hv : v = 0 <;> simp [hv]
  | _ => dsimp only; split <;> simp

theorem holds_underlying : Θ.Holds τ t ↔ Θ.Holds (Θ.pool.underlying τ) t := by
  obtain ⟨hchain, -⟩ := chain_of_shape h
  clear h
  generalize Θ.pool.underlying τ = u at hchain ⊢
  induction hchain using Relation.ReflTransGen.head_induction_on with
  | refl => rfl
  | head hab _ ih =>
    obtain ⟨n, hn⟩ := hab
    rw [holds_of_get hn]
    exact ih

/-- The trees of a type, by its shape. -/
theorem holds_iff :
    Θ.Holds τ t ↔ Θ.Root Θ.Holds (Θ.pool.underlying τ) t d := by
  rw [← holds_of_get h]
  exact holds_underlying h

end

-- ======== agreement

/-- Types agree only if they are the same behind aliases; or the second is a
type variable, which stands for any type. -/
def Coherent (Θ : Typing) : Prop :=
  ∀ a b, Θ.agree a b → a = b ∨ (∃ n, Θ.pool.shape? b = some (.var n)) ∨
    ((Θ.pool.shape? a).isSome ∧ Θ.pool.underlying a = Θ.pool.underlying b)

/-- There is no tree of type `Never`. -/
theorem not_holds_never : ¬Θ.Holds .never t := by
  have h : Θ.pool.get? .never = some (.builtin .never) := Θ.builtins 1 .never rfl
  rw [holds_of_get h]
  exact id

/-- A tree of a type is one of every type that it fits. -/
theorem Holds.fits (hΘ : Θ.Coherent) {a b : TypeId} (h : Θ.Holds a t)
    (hf : Θ.Fits a b) : Θ.Holds b t := by
  rcases hf with rfl | hf
  · exact absurd h not_holds_never
  · rcases hΘ a b hf with rfl | ⟨n, hb⟩ | ⟨ha, hab⟩
    · exact h
    · rw [holds_iff hb]
      trivial
    · obtain ⟨d, ha⟩ := Option.isSome_iff_exists.1 ha
      have hb : Θ.pool.shape? b = some d := by
        unfold Pool.shape? at ha ⊢
        rw [← hab]
        exact ha
      rw [holds_underlying ha] at h
      rw [holds_underlying hb, ← hab]
      exact h

-- ======== no references

/-- A tree of a scalar type has no objects. -/
theorem Holds.bare (hs : Θ.pool.Scalar τ) : ∀ {t : Tree}, Θ.Holds τ t → t.Bare := by
  induction hs with
  | @builtin _ b h hb =>
    intro t ht
    rw [holds_of_get h] at ht
    have hleaf : ∃ l, t.label? = some l ∧ l.isObject = false ∧ l.size = 0 := by
      cases b with
      | unit => exact ⟨_, ht, rfl, rfl⟩
      | never => exact absurd ht id
      | float => exact ht.elim fun x hx => ⟨_, hx, rfl, rfl⟩
      | str => exact absurd rfl hb
      | bool | int | char => exact ht.elim fun n hn => ⟨_, hn, rfl, rfl⟩
    obtain ⟨l, hl, hobj, hsize⟩ := hleaf
    exact .mk hl hobj fun i hi => absurd hi (by omega)
  | enum h hb =>
    intro t ht
    rw [holds_of_get h, Root, if_neg (by simp [hb])] at ht
    obtain ⟨m, hm⟩ := ht
    exact .mk hm rfl fun i hi => absurd hi (Nat.not_lt_zero i)
  | tuple h hes ih =>
    intro t ht
    rw [holds_of_get h] at ht
    obtain ⟨hl, hb⟩ := ht
    refine .mk hl rfl fun i hi => ?_
    have hget := List.getElem?_eq_getElem hi
    exact ih _ (List.getElem_mem hi) (hb i _ hget)
  | synonym h hu ih =>
    intro t ht
    rw [holds_of_get h] at ht
    exact ih ht

end Typing

end RefCount
