/-
Proper values. That a tree is of a type (`Typing.Holds`) says of a truth value
only that it is a number, and the same of an enum without fields. A proper
value is of its type, every truth value in it is 0 or 1, and every number that
stands for a variant is the number of one.

# The argument

The parts of a tree of a type are what its fields hold, and what a closure has
captured. A tree is proper if it and its parts, and theirs in turn, are in
range; so a tree is proper if it is in range itself and its parts are proper
(`proper_iff`), and every operation keeps to proper values.
-/
import RefCount.Proofs.Meaning.Matchings
import RefCount.Proofs.Plain.Typed

namespace RefCount

open Machine (Tree Label)
open Meaning (isVariant)
open List Option

namespace Typing

variable (Θ : Typing)
variable {r : Tree} {op : Op} {ts : List Tree} {τs : List TypeId} {i : Nat} {variant : Int}
  {n func : String} {vs : Option (List Variant)} {ft : FuncType}

-- ======== parts

/-- What a tree of a type consists of, with the types of the parts. -/
inductive Part : TypeId → Tree → TypeId → Tree → Prop
  | field {τ υ : TypeId} {t : Tree} {v : Int} {ts : List TypeId} {i : Nat}
      (hts : Θ.pool.fields τ v = .ok ts) (hv : isVariant t v = true)
      (hi : ts[i]? = some υ) : Part τ t υ (t.child i)
  | captured {τ υ r ty : TypeId} {t : Tree} {ps : List TypeId} {v : Int} {s : Bytes}
      {f : String} {k i : Nat} {ft : FuncType} (hτ : Θ.pool.shape? τ = some (.fn ps r))
      (hl : t.label? = some (.object ty v s f k)) (hf : Θ.funcs.lookup f = some ft)
      (hi : (ft.params.take k)[i]? = some υ) : Part τ t υ (t.child i)

/-- A tree and its parts, and theirs in turn. -/
inductive Inside : TypeId → Tree → TypeId → Tree → Prop
  | here {τ : TypeId} {t : Tree} : Inside τ t τ t
  | deeper {τ υ σ : TypeId} {t u w : Tree} (h : Θ.Part τ t υ u)
      (hs : Inside υ u σ w) : Inside τ t σ w

/-- The numbers that stand for values of a shape. -/
def ShapeRange (t : Tree) : TypeDef → Prop
  | .builtin .bool => t.label? = some (.int 0) ∨ t.label? = some (.int 1)
  | .enum n vs => ∀ m, t.label? = some (.int m) →
      ∃ i < (TypeDef.enum n vs).variants.length, m = Int64.ofInt i
  | _ => True

/-- The root of a tree is in the range of its type. -/
def InRange (τ : TypeId) (t : Tree) : Prop :=
  ∀ d, Θ.pool.shape? τ = some d → ShapeRange t d

/-- A tree is a proper value of a type. -/
structure Proper (τ : TypeId) (t : Tree) : Prop where
  holds : Θ.Holds τ t
  range : ∀ σ u, Θ.Inside τ t σ u → Θ.InRange σ u

variable {Θ} {τ υ : TypeId} {t u : Tree} {d : TypeDef}

/-- The parts of a tree of a type are of their types. -/
theorem Part.holds (h : Θ.Part τ t υ u) (ht : Θ.Holds τ t) : Θ.Holds υ u := by
  cases h with
  | @field _ _ v ts i hts hv hi =>
    rcases Plain.holds_fields hts ht with ⟨-, -, hb⟩ | ⟨w, us, hl, hus, hb⟩ | ⟨rfl, -⟩
    · exact hb _ _ hi
    · -- an object has the fields of its variant
      obtain rfl : w = v := by simpa [isVariant, hl] using hv
      cases hts.symm.trans hus
      exact hb _ _ hi
    · cases hi
  | captured hτ hl hf hi =>
    rw [holds_iff hτ] at ht
    obtain ⟨_, _, _, _, _, ft, hl', hft, -, -, -, hb⟩ := ht
    rw [hl] at hl'
    obtain ⟨-, -, -, rfl, rfl⟩ := Label.object.inj (some.inj hl')
    rw [hf] at hft
    cases hft
    exact hb _ _ hi

theorem Proper.part (h : Θ.Proper τ t) (hp : Θ.Part τ t υ u) : Θ.Proper υ u :=
  ⟨hp.holds h.holds, fun σ w hs => h.range σ w (.deeper hp hs)⟩

/-- A tree is proper if it is in range and its parts are proper. -/
theorem proper_iff : Θ.Proper τ t ↔ Θ.Holds τ t ∧ Θ.InRange τ t ∧
    ∀ υ u, Θ.Part τ t υ u → Θ.Proper υ u := by
  constructor
  · intro h
    exact ⟨h.holds, h.range τ t .here, fun υ u hp => h.part hp⟩
  · rintro ⟨hh, hr, hp⟩
    refine ⟨hh, fun σ w hs => ?_⟩
    cases hs with
    | here => exact hr
    | deeper hpart hs => exact (hp _ _ hpart).range σ w hs

/-- A value of a built-in type is proper if it is in range. -/
theorem proper_of_builtin {b : Builtin} (hτ : Θ.Is b τ) (hh : Θ.Holds τ t)
    (hr : ShapeRange t (.builtin b)) : Θ.Proper τ t := by
  refine proper_iff.2 ⟨hh, ?_, ?_⟩
  · intro d hd
    rw [hτ] at hd
    cases hd
    exact hr
  · intro υ u hp
    cases hp with
    | field hts _ hi =>
      have hnone : Θ.pool.fields τ _ = _ := hts
      simp [Pool.fields, show Θ.pool.shape? τ = some (.builtin b) from hτ,
        TypeDef.variants, Pool.at?] at hnone
    | captured hfn _ _ _ =>
      rw [hτ] at hfn
      cases hfn

-- ======== operations

theorem proper_literal {v : Literal} (h : Θ.LitFits v τ) (pool : Pool) :
    Θ.Proper τ (Plain.literal pool v) := by
  refine proper_of_builtin h (Plain.literal_holds h pool) ?_
  cases v with
  | bool b =>
    cases b with
    | false => exact .inl rfl
    | true => exact .inr rfl
  | _ => trivial

theorem holds_of_proper (h : Forall₂ Θ.Proper τs ts) : Forall₂ Θ.Holds τs ts :=
  h.imp fun _ _ hp => hp.holds

/-- Trees below a root, one for one. -/
theorem proper_child {l : Label} (h : Forall₂ Θ.Proper τs ts) (hi : τs[i]? = some υ) :
    Θ.Proper υ ((Machine.Tree.node l ts).child i) := by
  obtain ⟨t, ht, hproper⟩ := forall₂_getElem? h hi
  rwa [Tree.child_node ht]

/-- The number of a variant with fields is in range. -/
theorem variant_lt (hd : Θ.pool.shape? τ = some (.enum n vs))
    (h : Θ.pool.fields τ variant = .ok τs) :
    ∃ i < (TypeDef.enum n vs).variants.length, variant = (i : Int) := by
  unfold Pool.fields at h
  rw [hd] at h
  dsimp only at h
  split at h
  · next v hv =>
    unfold Pool.at? at hv
    split at hv
    · cases hv
    · next hneg =>
      obtain ⟨hlt, -⟩ := List.getElem?_eq_some_iff.1 hv
      exact ⟨variant.toNat, hlt, by omega⟩
  · cases h

theorem fields_of_lt (hd : Θ.pool.shape? τ = some (.enum n vs))
    (hi : i < (TypeDef.enum n vs).variants.length) :
    ∃ τs, Θ.pool.fields τ i = .ok τs := by
  have hget : Pool.at? (TypeDef.enum n vs).variants (i : Int) =
      some (TypeDef.enum n vs).variants[i] := by
    rw [Pool.at?, if_neg (by omega), Int.toNat_natCast, getElem?_eq_getElem hi]
  unfold Pool.fields
  rw [hd]
  dsimp only
  rw [hget]
  exact ⟨_, rfl⟩

theorem proper_construct (hτs : Θ.pool.fields τ variant = .ok τs)
    (hts : Forall₂ Θ.Proper τs ts) (h : Plain.construct Θ.pool τ variant ts = some r) :
    Θ.Proper τ r := by
  have hh := Plain.construct_holds hτs (holds_of_proper hts) h
  obtain ⟨shape, hshape, hr⟩ := map_eq_some_iff.1 h
  refine proper_iff.2 ⟨hh, ?_, ?_⟩
  · -- only an enum without fields is a number
    intro d hd
    rw [hshape] at hd
    cases hd
    rcases Plain.fields_ok hτs with htuple | ⟨d, hd, hkind, hagg⟩
    · rw [hshape] at htuple
      cases htuple
      trivial
    · rw [hshape] at hd
      cases hd
      rcases hagg with ⟨n, fs, rfl⟩ | ⟨n, vs, rfl⟩
      · trivial
      · intro m hm
        rw [if_neg hkind] at hr
        split at hr
        · subst hr
          cases hm
        · subst hr
          obtain ⟨i, hi, rfl⟩ := variant_lt hshape hτs
          exact ⟨i, hi, (Label.int.inj (some.inj hm)).symm⟩
  · intro υ u hp
    cases hp with
    | @field _ _ v us i hus hv hi =>
      rcases Plain.fields_ok hτs with htuple | ⟨d, hd, hkind, -⟩
      · have hsame : us = τs := by
          rcases Plain.fields_ok hus with htuple' | ⟨d, hd, hkind, -⟩
          · rw [htuple] at htuple'
            exact (TypeDef.tuple.inj (some.inj htuple')).symm
          · rw [htuple] at hd
            cases hd
            exact absurd rfl hkind
        subst hsame
        rw [htuple] at hshape
        cases hshape
        have hkind : (TypeDef.tuple us).kind = .tuple := rfl
        rw [if_pos hkind] at hr
        subst hr
        exact proper_child hts hi
      · rw [hshape] at hd
        cases hd
        rw [if_neg hkind] at hr
        split at hr
        · subst hr
          obtain rfl : variant = v := by
            simpa [isVariant, Machine.Tree.label?, Machine.Tree.node] using hv
          rw [hτs] at hus
          cases hus
          exact proper_child hts hi
        · next hboxed =>
          obtain rfl := Plain.fields_of_not_boxed hus hshape hkind (by simpa using hboxed)
          cases hi
    | captured hfn _ _ _ =>
      rcases Plain.fields_ok hτs with htuple | ⟨d, hd, -, ⟨n, fs, rfl⟩ | ⟨n, vs, rfl⟩⟩
      · rw [htuple] at hfn
        cases hfn
      · rw [hd] at hfn
        cases hfn
      · rw [hd] at hfn
        cases hfn

-- ======== variants

/-- The fields of a variant of a proper value are proper, and can be read. -/
theorem Proper.fields (ht : Θ.Proper τ t) {i : Int} {ts : List TypeId}
    (hts : Θ.pool.fields τ i = .ok ts) (hi : isVariant t i = true) :
    Forall₂ Θ.Proper ts (t.children ts.length) ∧
      ∀ k < ts.length, Plain.project t i k = some (t.child k) := by
  have hsize : ts.length = 0 ∨ t.label? = some (.tuple ts.length) ∨
      ∃ ty s f, t.label? = some (.object ty i s f ts.length) := by
    rcases Plain.holds_fields hts ht.holds with ⟨-, hl, -⟩ | ⟨w, us, hl, hus, -⟩ | ⟨rfl, -⟩
    · exact .inr (.inl hl)
    · obtain rfl : w = i := by simpa [isVariant, hl] using hi
      cases hts.symm.trans hus
      exact .inr (.inr ⟨_, _, _, hl⟩)
    · exact .inl rfl
  refine ⟨?_, ?_⟩
  · rw [forall₂_iff_get]
    refine ⟨by simp [Tree.children], fun k hk _ => ?_⟩
    have := ht.part (.field hts hi (getElem?_eq_getElem hk))
    simpa [Tree.children] using this
  · intro k hk
    rcases hsize with hzero | hl | ⟨ty, s, f, hl⟩
    · omega
    · simp [Plain.project, hl, hk]
    · simp [Plain.project, hl, hk]

end Typing

end RefCount
