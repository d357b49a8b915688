/-
The classes of types are exact, whatever was asked before. A type has no class
if a number without a type is reached from it through the elements of tuples
and the targets of aliases. Otherwise it is a definite reference if a reference
or a cycle is reached that way, a possible one if at least a type variable or
an unresolved alias is, and a scalar if none of these is.

# The argument

By these rules the class of a type is the greatest of the classes of its parts,
a type on a cycle included: its next type on the cycle is a definite reference
too. So an answer that rests on no type in progress is exact if those about the
parts are.

An answer that rests on a type in progress says definite reference. It is
remembered once the outermost type that it rests on is done, and then that type
has been reached from itself. What remains is that nothing unknown has been
missed: a path from the type to an unknown one leads through a type in progress
no further out than `low` (`Sound.safe`). When nothing further out is left, there
is no such path.
-/
import Mathlib
import RefCount.Proofs.Outcome
import RefCount.Types.Class

namespace RefCount

open Relation List

namespace Pool

variable {p : Pool} {a b c : TypeId} {d : TypeDef} {ids : List TypeId}

-- ======== what is reached

/-- The types whose classes go into the class of a type. -/
inductive Part (p : Pool) (a : TypeId) : TypeId → Prop
  | element {es : List TypeId} {b : TypeId} (h : p.get? a = some (.tuple es)) (hb : b ∈ es) :
      Part p a b
  | target {n : String} {b : TypeId} (h : p.get? a = some (.synonym n (some b))) : Part p a b

/-- A type is reached through elements and targets. -/
def Reaches (p : Pool) : TypeId → TypeId → Prop := ReflTransGen p.Part

/-- The types that are references by themselves. -/
inductive IsRef (p : Pool) (a : TypeId) : Prop
  | str (h : p.get? a = some (.builtin .str))
  | list {e : TypeId} (h : p.get? a = some (.list e))
  | fn {ps : List TypeId} {r : TypeId} (h : p.get? a = some (.fn ps r))
  | record {n : String} {fs : Option (List Field)} (h : p.get? a = some (.record n fs))
  | enum {n : String} {vs : Option (List Variant)} (h : p.get? a = some (.enum n vs))
      (hb : p.isBoxed a = true)

/-- The types that stand for types not known yet. -/
inductive IsOpen (p : Pool) (a : TypeId) : Prop
  | var {n : String} (h : p.get? a = some (.var n))
  | unresolved {n : String} (h : p.get? a = some (.synonym n none))

/-- A type leads to a number that the pool does not have. -/
def Unknown (p : Pool) (a : TypeId) : Prop := ∃ b, p.Reaches a b ∧ p.get? b = none

/-- A type leads to a reference. -/
def Definite (p : Pool) (a : TypeId) : Prop :=
  ∃ b, p.Reaches a b ∧ (p.IsRef b ∨ TransGen p.Part b b)

/-- A type leads to a variable. -/
def Possible (p : Pool) (a : TypeId) : Prop := ∃ b, p.Reaches a b ∧ p.IsOpen b

/-- Values of a type hold no references. -/
inductive Scalar (p : Pool) : TypeId → Prop
  | builtin {t : TypeId} {b : Builtin} (h : p.get? t = some (.builtin b))
      (hb : b ≠ .str) : Scalar p t
  | enum {t : TypeId} {n : String} {vs : Option (List Variant)}
      (h : p.get? t = some (.enum n vs)) (hb : p.isBoxed t = false) : Scalar p t
  | tuple {t : TypeId} {es : List TypeId} (h : p.get? t = some (.tuple es))
      (hes : ∀ e ∈ es, Scalar p e) : Scalar p t
  | synonym {t u : TypeId} {n : String} (h : p.get? t = some (.synonym n (some u)))
      (hu : Scalar p u) : Scalar p t

/-- What is reached is the type itself or reached from a part. -/
theorem reaches_some_iff {Q : TypeId → Prop} :
    (∃ b, p.Reaches a b ∧ Q b) ↔ Q a ∨ ∃ b, p.Part a b ∧ ∃ c, p.Reaches b c ∧ Q c := by
  constructor
  · rintro ⟨b, hab, hb⟩
    rcases ReflTransGen.cases_head hab with rfl | ⟨c, hac, hcb⟩
    · exact .inl hb
    · exact .inr ⟨c, hac, b, hcb, hb⟩
  · rintro (ha | ⟨b, hab, c, hbc, hc⟩)
    · exact ⟨a, .refl, ha⟩
    · exact ⟨c, .head hab hbc, hc⟩

theorem unknown_iff : p.Unknown a ↔ p.get? a = none ∨ ∃ b, p.Part a b ∧ p.Unknown b :=
  reaches_some_iff

theorem possible_iff : p.Possible a ↔ p.IsOpen a ∨ ∃ b, p.Part a b ∧ p.Possible b :=
  reaches_some_iff

/-- A cycle is reached from the next type on it as well. -/
theorem definite_iff : p.Definite a ↔ p.IsRef a ∨ ∃ b, p.Part a b ∧ p.Definite b := by
  rw [Definite, reaches_some_iff]
  constructor
  · rintro ((ha | ha) | h)
    · exact .inl ha
    · obtain ⟨b, hab, hba⟩ := TransGen.head'_iff.1 ha
      exact .inr ⟨b, hab, b, .refl, .inr (.tail' hba hab)⟩
    · exact .inr h
  · rintro (ha | h)
    · exact .inl (.inl ha)
    · exact .inr h

-- ======== what a definition says

section

variable (hd : p.get? a = some d)
include hd

theorem part_iff :
    p.Part a b ↔ ∃ ids, Class.parts? d = some ids ∧ b ∈ ids := by
  constructor
  · rintro (⟨h, hb⟩ | h)
    · cases hd.symm.trans h
      exact ⟨_, rfl, hb⟩
    · cases hd.symm.trans h
      exact ⟨_, rfl, mem_singleton_self b⟩
  · rintro ⟨ids, hids, hb⟩
    cases d with
    | tuple es =>
      cases hids
      exact .element hd hb
    | synonym n target =>
      cases target with
      | none => cases hids
      | some u =>
        cases hids
        obtain rfl := mem_singleton.1 hb
        exact .target hd
    | _ => cases hids

theorem isRef_iff :
    p.IsRef a ↔ Class.parts? d = none ∧ Class.own p a d = .definiteRef := by
  constructor
  · rintro (h | h | h | h | ⟨h, hb⟩) <;> cases hd.symm.trans h
    · exact ⟨rfl, rfl⟩
    · exact ⟨rfl, rfl⟩
    · exact ⟨rfl, rfl⟩
    · exact ⟨rfl, rfl⟩
    · exact ⟨rfl, if_pos hb⟩
  · rintro ⟨hparts, hown⟩
    cases d with
    | builtin b =>
      rw [Class.own] at hown
      split at hown
      · next hb => exact .str (hb ▸ hd)
      · cases hown
    | list => exact .list hd
    | fn => exact .fn hd
    | record => exact .record hd
    | enum =>
      rw [Class.own] at hown
      split at hown
      · next hb => exact .enum hd hb
      · cases hown
    | _ => cases hown

theorem isOpen_iff :
    p.IsOpen a ↔ Class.parts? d = none ∧ Class.own p a d = .possibleRef := by
  constructor
  · rintro (h | h) <;> obtain rfl := Option.some.inj (hd.symm.trans h) <;> exact ⟨rfl, rfl⟩
  · rintro ⟨hparts, hown⟩
    cases d with
    | var => exact .var hd
    | synonym n target =>
      cases target with
      | none => exact .unresolved hd
      | some => cases hparts
    | builtin b => rw [Class.own] at hown; split at hown <;> cases hown
    | enum => rw [Class.own] at hown; split at hown <;> cases hown
    | _ => cases hown

/-- A type that decides by itself. -/
theorem scalar_of_own (hparts : Class.parts? d = none)
    (h : Class.own p a d = .scalar) : p.Scalar a := by
  cases d with
  | builtin b =>
    refine .builtin hd ?_
    rintro rfl
    cases h
  | enum n vs =>
    refine .enum hd ?_
    rw [Class.own] at h
    split at h
    · cases h
    · next hb => simpa using hb
  | tuple es => cases hparts
  | _ => cases h

theorem scalar_of_parts (hparts : Class.parts? d = some ids)
    (h : ∀ b ∈ ids, p.Scalar b) : p.Scalar a := by
  cases d with
  | tuple es =>
    cases hparts
    exact .tuple hd h
  | synonym n target =>
    cases target with
    | none => cases hparts
    | some u =>
      cases hparts
      exact .synonym hd (h u (mem_singleton_self u))
  | _ => cases hparts

end

/-- The class of a type is at least the one of a rank. -/
def Ranks (p : Pool) (a : TypeId) : Nat → Prop
  | 0 => True
  | 1 => p.Definite a ∨ p.Possible a
  | 2 => p.Definite a
  | _ => False

/-- The rank of a type that decides by itself. -/
theorem ranks_of_own (hd : p.get? a = some d) (hparts : Class.parts? d = none) :
    ∀ n, n ≤ (Class.own p a d).rank ↔ p.Ranks a n := by
  have hno : ∀ Q : TypeId → Prop, ¬∃ b, p.Part a b ∧ Q b := by
    rintro Q ⟨b, hb, -⟩
    obtain ⟨ids, hids, -⟩ := (part_iff hd).1 hb
    cases hparts.symm.trans hids
  have hdef : p.Definite a ↔ Class.own p a d = .definiteRef := by
    rw [definite_iff, or_iff_left (hno _), isRef_iff hd, and_iff_right hparts]
  have hpos : p.Possible a ↔ Class.own p a d = .possibleRef := by
    rw [possible_iff, or_iff_left (hno _), isOpen_iff hd, and_iff_right hparts]
  rintro (_ | _ | _ | n) <;> simp only [Ranks, hdef, hpos] <;>
    cases Class.own p a d <;> simp [Class.rank]

/-- The rank of a type is that of its parts. -/
theorem ranks_of_parts (hd : p.get? a = some d) (hparts : Class.parts? d = some ids) :
    ∀ n, p.Ranks a (n + 1) ↔ ∃ b ∈ ids, p.Ranks b (n + 1) := by
  have hpart : ∀ Q : TypeId → Prop, (∃ b, p.Part a b ∧ Q b) ↔ ∃ b ∈ ids, Q b := by
    intro Q
    simp only [part_iff hd, hparts, Option.some.injEq, exists_eq_left']
  have hdef : p.Definite a ↔ ∃ b ∈ ids, p.Definite b := by
    rw [definite_iff, isRef_iff hd, hparts, hpart]
    simp
  have hpos : p.Possible a ↔ ∃ b ∈ ids, p.Possible b := by
    rw [possible_iff, isOpen_iff hd, hparts, hpart]
    simp
  rintro (_ | _ | n)
  · simp only [Ranks, hdef, hpos, ← exists_or, ← and_or_left]
  · exact hdef
  · simp [Ranks]

/-- A class is the one of a type. -/
structure Exact (p : Pool) (a : TypeId) (c : Class) : Prop where
  known : ¬p.Unknown a
  rank : ∀ n, n ≤ c.rank ↔ p.Ranks a n
  scalar : c = .scalar → p.Scalar a

-- ======== paths that avoid types

/-- A type is reached by a path none of whose types, the ends included, is in
a set. -/
inductive Avoids (p : Pool) (T : Set TypeId) : TypeId → TypeId → Prop
  | here {a : TypeId} (ha : a ∉ T) : Avoids p T a a
  | step {a b c : TypeId} (ha : a ∉ T) (hab : p.Part a b) (hbc : Avoids p T b c) :
      Avoids p T a c

variable {T T' : Set TypeId}

theorem Avoids.head_notMem (h : p.Avoids T a b) : a ∉ T := by
  cases h with
  | here ha => exact ha
  | step ha => exact ha

theorem Avoids.mono (hT : T' ⊆ T) (h : p.Avoids T a b) : p.Avoids T' a b := by
  induction h with
  | here ha => exact .here fun h => ha (hT h)
  | step ha hab _ ih => exact .step (fun h => ha (hT h)) hab ih

theorem Avoids.reaches (h : p.Avoids T a b) : p.Reaches a b := by
  induction h with
  | here => exact .refl
  | step _ hab _ ih => exact .head hab ih

/-- Every way avoids nothing. -/
theorem avoids_empty (h : p.Reaches a b) : p.Avoids ∅ a b := by
  induction h using ReflTransGen.head_induction_on with
  | refl => exact .here id
  | head hac _ ih => exact .step id hac ih

/-- Past its last visit to a type, a path avoids that type too. -/
theorem Avoids.past (h : p.Avoids T a b) (hne : b ≠ c) :
    p.Avoids (insert c T) a b ∨ ∃ x, p.Part c x ∧ p.Avoids (insert c T) x b := by
  induction h with
  | @here a ha => exact .inl (.here (by simp [hne, ha]))
  | @step a x b ha hax _ ih =>
    rcases ih hne with h | h
    · by_cases hac : a = c
      · exact .inr ⟨x, hac ▸ hax, h⟩
      · exact .inl (.step (by simp [hac, ha]) hax h)
    · exact .inr h

end Pool

namespace Class

open Pool

variable {p : Pool} {t : Table} {id : TypeId}
variable {xs S : List (TypeId × Nat)} {u : Table} {c : Class} {v w : Verdict} {a b low : Option Nat}
  {l : Nat} {ids : List TypeId} {ask : Table → TypeId → Answer} {d : TypeDef} {name : String}
  {r : Answer} {e : ClassError}

-- ======== what is in progress

/-- What is remembered is exact, and the types in progress are known, distinct
and numbered by their depths. -/
structure Table.Good (p : Pool) (t : Table) : Prop where
  memo : ∀ id c, t.memo.lookup id = some c → p.Exact id c
  known : ∀ e ∈ t.stack, (p.get? e.1).isSome
  nodup : (t.stack.map Prod.fst).Nodup
  depth : ∀ e ∈ t.stack, e.2 < t.stack.length

/-- An empty table is good. -/
theorem good_empty : Table.Good p .empty where
  memo := fun _ _ h => by cases h
  known := fun _ h => nomatch h
  nodup := nodup_nil
  depth := fun _ h => nomatch h

theorem mem_of_lookup {x : Nat} (h : xs.lookup id = some x) : (id, x) ∈ xs := by
  obtain ⟨l₁, l₂, rfl, -⟩ := lookup_eq_some_iff.1 h
  simp

theorem notMem_of_lookup (h : xs.lookup id = none) : id ∉ xs.map Prod.fst := by
  rw [lookup_eq_none_iff] at h
  intro hmem
  obtain ⟨e, he, rfl⟩ := mem_map.1 hmem
  simpa using h e he

/-- A query is begun. -/
theorem Table.Good.enter (ht : t.Good p) (hnew : t.stack.lookup id = none)
    (hid : (p.get? id).isSome) : (t.enter id).Good p where
  memo := ht.memo
  known := forall_mem_cons.2 ⟨hid, ht.known⟩
  nodup := nodup_cons.2 ⟨notMem_of_lookup hnew, ht.nodup⟩
  depth := forall_mem_cons.2 ⟨Nat.lt_succ_self _, fun e he => Nat.lt_succ_of_lt (ht.depth e he)⟩

/-- A query that is over leaves the stack as it was. -/
theorem leave_stack (hnew : t.stack.lookup id = none) (hu : u.stack = (t.enter id).stack) :
    (u.leave id).stack = t.stack := by
  show u.stack.filter _ = t.stack
  rw [hu]
  show List.filter _ ((id, _) :: t.stack) = t.stack
  rw [filter_cons_of_neg (by simp), filter_eq_self]
  intro e he
  have hne : e.1 ≠ id := fun h => notMem_of_lookup hnew (h ▸ mem_map_of_mem he)
  simpa using hne

theorem Table.Good.of_stack (ht : t.Good p) (hu : u.stack = t.stack)
    (hmemo : ∀ id c, u.memo.lookup id = some c → p.Exact id c) : u.Good p :=
  ⟨hmemo, hu ▸ ht.known, hu ▸ ht.nodup, hu ▸ ht.depth⟩

/-- An exact answer is remembered. -/
theorem Table.Good.remember (ht : t.Good p) (hc : p.Exact id c) : (t.remember id c).Good p := by
  refine ht.of_stack rfl fun x c' hx => ?_
  rw [show (t.remember id c).memo = (id, c) :: t.memo from rfl, lookup_cons] at hx
  split at hx
  · next heq =>
    obtain rfl : x = id := by simpa using heq
    exact Option.some.inj hx ▸ hc
  · exact ht.memo x c' hx

/-- No more types are in progress than there are. -/
theorem Table.Good.length_le (ht : t.Good p) : t.stack.length ≤ p.size := by
  have hsub : (t.stack.map Prod.fst).toFinset ⊆
      (Finset.range p.size).image (fun i : Nat => (i : Int)) := by
    intro id hid
    obtain ⟨e, he, rfl⟩ := mem_map.1 (mem_toFinset.1 hid)
    obtain ⟨d, hd⟩ := Option.isSome_iff_exists.1 (ht.known e he)
    rw [Pool.get?] at hd
    split at hd
    · cases hd
    · next hneg =>
      refine Finset.mem_image.2 ⟨e.1.toNat, ?_, Int.toNat_of_nonneg (not_lt.1 hneg)⟩
      exact Finset.mem_range.2 (Array.getElem?_eq_some_iff.1 hd).1
  calc t.stack.length = (t.stack.map Prod.fst).length := by rw [length_map]
    _ = (t.stack.map Prod.fst).toFinset.card := (toFinset_card_of_nodup ht.nodup).symm
    _ ≤ ((Finset.range p.size).image (fun i : Nat => (i : Int))).card :=
        Finset.card_le_card hsub
    _ ≤ p.size := Finset.card_image_le.trans (Finset.card_range _).le

-- ======== what an answer says

/-- The types in progress that an answer may rest on. -/
def within (S : List (TypeId × Nat)) (low : Option Nat) : Set TypeId :=
  { s | ∃ l d, low = some l ∧ l ≤ d ∧ (s, d) ∈ S }

/-- An answer under types in progress: it is exact if it rests on none of them,
otherwise it says definite reference; and nothing unknown is reached around
those that it may rest on. -/
structure Sound (p : Pool) (S : List (TypeId × Nat)) (id : TypeId) (v : Verdict) : Prop where
  exact : v.low = none → p.Exact id v.kind
  rests : ∀ l, v.low = some l → v.kind = definiteRef ∧ ∃ s, (s, l) ∈ S ∧ p.Reaches id s
  safe : ∀ b, p.get? b = none → ¬p.Avoids (within S v.low) id b

/-- An exact class rests on nothing. -/
theorem sound_of_exact (hlow : v.low = none) (h : p.Exact id v.kind) : Sound p S id v where
  exact := fun _ => h
  rests := fun l hl => by cases hlow.symm.trans hl
  safe := fun b hb hav => h.known ⟨b, hav.reaches, hb⟩

theorem within_minLow_left : within S a ⊆ within S (minLow a b) := by
  rintro s ⟨l, d, rfl, hld, hs⟩
  cases b with
  | none => exact ⟨l, d, rfl, hld, hs⟩
  | some m => exact ⟨min l m, d, rfl, (min_le_left l m).trans hld, hs⟩

theorem minLow_comm (a b : Option Nat) : minLow a b = minLow b a := by
  cases a <;> cases b <;> simp [minLow, min_comm]

theorem minLow_eq_some (h : minLow a b = some l) : a = some l ∨ b = some l := by
  cases a with
  | none => exact .inr h
  | some x =>
    cases b with
    | none => exact .inl h
    | some y =>
      cases h
      rcases min_choice x y with hm | hm <;> simp [hm]

theorem minLow_eq_none (h : minLow a b = none) : a = none ∧ b = none := by
  cases a <;> cases b <;> simp_all [minLow]

/-- The rank of two classes together. -/
theorem le_rank_join {a b : Class} {n : Nat} : n ≤ (a.join b).rank ↔ n ≤ a.rank ∨ n ≤ b.rank := by
  rw [join]
  split <;> omega

theorem join_eq_scalar {a b : Class} (h : a.join b = scalar) : a = scalar ∧ b = scalar := by
  cases a <;> cases b <;> simp_all [join, rank]

theorem join_eq_definiteRef {a b : Class} (h : a = definiteRef ∨ b = definiteRef) :
    a.join b = definiteRef := by
  cases a <;> cases b <;> simp_all [join, rank]

/-- What the answers about parts say together with what was known before. -/
structure Joins (p : Pool) (S : List (TypeId × Nat)) (ids : List TypeId) (v w : Verdict) :
    Prop where
  exact : w.low = none → v.low = none ∧
    (∀ b ∈ ids, ¬p.Unknown b ∧ (w.kind = scalar → p.Scalar b)) ∧
    ∀ n, n + 1 ≤ w.kind.rank ↔ n + 1 ≤ v.kind.rank ∨ ∃ b ∈ ids, p.Ranks b (n + 1)
  rests : ∀ l, w.low = some l → w.kind = definiteRef ∧
    (v.low = some l ∨ ∃ b ∈ ids, ∃ s, (s, l) ∈ S ∧ p.Reaches b s)
  mono : within S v.low ⊆ within S w.low
  safe : ∀ b ∈ ids, ∀ c, p.get? c = none → ¬p.Avoids (within S w.low) b c
  scalar : w.kind = scalar → v.kind = scalar

theorem joins_nil (hv : ∀ l, v.low = some l → v.kind = definiteRef) : Joins p S [] v v where
  exact := fun h => ⟨h, by simp, by simp⟩
  rests := fun l hl => ⟨hv l hl, .inl hl⟩
  mono := subset_rfl
  safe := by simp
  scalar := id

/-- One more part is joined. -/
theorem Joins.cons {u : Verdict} (hu : Sound p S id u) (h : Joins p S ids (v.join u) w) :
    Joins p S (id :: ids) v w where
  exact := by
    intro hw
    obtain ⟨hlow, hparts, hrank⟩ := h.exact hw
    obtain ⟨hv, hulow⟩ := minLow_eq_none hlow
    have hex := hu.exact hulow
    refine ⟨hv, forall_mem_cons.2 ⟨⟨hex.known, fun hs => ?_⟩, hparts⟩, fun n => ?_⟩
    · exact hex.scalar (join_eq_scalar (h.scalar hs)).2
    · rw [hrank n, Verdict.join, le_rank_join, hex.rank, exists_mem_cons_iff, or_assoc]
  rests := by
    intro l hl
    obtain ⟨hkind, hlow | ⟨b, hb, hs⟩⟩ := h.rests l hl
    · refine ⟨hkind, (minLow_eq_some hlow).imp_right fun hul => ?_⟩
      exact ⟨id, .head _, (hu.rests l hul).2⟩
    · exact ⟨hkind, .inr ⟨b, mem_cons_of_mem id hb, hs⟩⟩
  mono := within_minLow_left.trans h.mono
  safe := by
    refine forall_mem_cons.2 ⟨fun c hc hav => hu.safe c hc (hav.mono ?_), h.safe⟩
    have hsub : within S u.low ⊆ within S (minLow u.low v.low) := within_minLow_left
    rw [minLow_comm] at hsub
    exact hsub.trans h.mono
  scalar := fun hs => (join_eq_scalar (h.scalar hs)).1

/-- The outcome of a query about types, under the types in progress. -/
structure Finds (p : Pool) (t : Table) (U : Prop) (P : Verdict → Prop) (r : Answer) : Prop where
  good : r.2.Good p
  stack : r.2.stack = t.stack
  error : ∀ e, r.1 = .error e → U
  ok : ∀ v, r.1 = .ok v → P v

/-- The classes of parts are joined, if each query finds what it should. -/
theorem joinAll_finds
    (hask : ∀ t id, t.Good p → t.stack = S → Finds p t (p.Unknown id) (Sound p S id) (ask t id)) :
    ∀ (ids : List TypeId) (v : Verdict) (t : Table), t.Good p → t.stack = S →
      (∀ l, v.low = some l → v.kind = definiteRef) →
      Finds p t (∃ b ∈ ids, p.Unknown b) (Joins p S ids v) (joinAll ask v t ids) := by
  intro ids
  induction ids with
  | nil =>
    intro v t ht hS hv
    refine ⟨ht, rfl, fun e he => (by cases he), fun w hw => ?_⟩
    cases hw
    exact joins_nil hv
  | cons id ids ih =>
    intro v t ht hS hv
    have hone := hask t id ht hS
    rw [joinAll]
    rcases hans : ask t id with ⟨e | u, t'⟩
    · rw [hans] at hone
      exact ⟨hone.good, hone.stack, fun _ _ => ⟨id, .head _, hone.error e rfl⟩,
        fun w hw => by cases hw⟩
    · rw [hans] at hone
      have hu := hone.ok u rfl
      have hkind : ∀ l, (v.join u).low = some l → (v.join u).kind = definiteRef := by
        intro l hl
        exact join_eq_definiteRef ((minLow_eq_some hl).imp (hv l) fun hul => (hu.rests l hul).1)
      have hrest := ih (v.join u) t' hone.good (hone.stack.trans hS) hkind
      refine ⟨hrest.good, hrest.stack.trans hone.stack, fun e he => ?_, fun w hw => ?_⟩
      · obtain ⟨b, hb, hunk⟩ := hrest.error e he
        exact ⟨b, mem_cons_of_mem id hb, hunk⟩
      · exact (hrest.ok w hw).cons hu

-- ======== one type

theorem within_enter_subset : within (t.enter id).stack low ⊆ insert id (within t.stack low) := by
  rintro s ⟨l, d, hl, hld, hs⟩
  rcases mem_cons.1 hs with heq | hs
  · exact .inl (Prod.mk.inj heq).1
  · exact .inr ⟨l, d, hl, hld, hs⟩

/-- Nothing in progress is as deep as a type that is taken up. -/
theorem within_eq_empty (ht : t.Good p) (hlow : low.any (· < t.stack.length) = false) :
    within t.stack low = ∅ := by
  refine Set.eq_empty_of_forall_notMem ?_
  rintro s ⟨l, d, rfl, hld, hs⟩
  have hlt : d < t.stack.length := ht.depth _ hs
  have hle : ¬l < t.stack.length := by simpa using hlow
  omega

/-- What the parts of a type say goes for the type. -/
theorem Joins.sound (hd : p.get? id = some d) (hparts : parts? d = some ids)
    (h : Joins p (t.enter id).stack ids ⟨.scalar, none⟩ w) (hw : w.low = none) :
    p.Exact id w.kind := by
  obtain ⟨-, hall, hrank⟩ := h.exact hw
  refine ⟨fun hunk => ?_, fun n => ?_, fun hs => ?_⟩
  · rcases unknown_iff.1 hunk with hnone | ⟨b, hb, hunk⟩
    · cases hd.symm.trans hnone
    · obtain ⟨ids', hids', hmem⟩ := (part_iff hd).1 hb
      cases hparts.symm.trans hids'
      exact (hall b hmem).1 hunk
  · cases n with
    | zero => exact iff_of_true (Nat.zero_le _) trivial
    | succ n => rw [hrank n, ranks_of_parts hd hparts]; simp [rank]
  · exact scalar_of_parts hd hparts fun b hb => (hall b hb).2 hs

/-- Around the types in progress nothing unknown is reached from a type if
nothing is from its parts. -/
theorem Joins.safe_enter (hd : p.get? id = some d) (hparts : parts? d = some ids)
    (h : Joins p (t.enter id).stack ids v w) (b : TypeId) (hb : p.get? b = none) :
    ¬p.Avoids (within t.stack w.low) id b := by
  intro hav
  have hne : b ≠ id := by
    rintro rfl
    cases hd.symm.trans hb
  rcases hav.past hne with hav | ⟨x, hx, hav⟩
  · exact hav.head_notMem (Set.mem_insert id _)
  · obtain ⟨ids', hids', hmem⟩ := (part_iff hd).1 hx
    cases hparts.symm.trans hids'
    exact h.safe x hmem b hb (hav.mono within_enter_subset)

/-- A type that only rests on itself is reached from itself. -/
theorem Joins.exact_of_self (ht : t.Good p) (hd : p.get? id = some d)
    (hparts : parts? d = some ids) (h : Joins p (t.enter id).stack ids ⟨.scalar, none⟩ w)
    (hl : w.low = some l) (hle : t.stack.length ≤ l) : p.Exact id w.kind := by
  obtain ⟨hkind, hnone | ⟨b, hb, s, hs, hreach⟩⟩ := h.rests l hl
  · cases hnone
  · obtain rfl : s = id := by
      rcases mem_cons.1 hs with heq | hs
      · exact (Prod.mk.inj heq).1
      · exact absurd (ht.depth _ hs) (not_lt.2 hle)
    have hcycle : p.Definite s :=
      ⟨s, .refl, .inr (.head' ((part_iff hd).2 ⟨ids, hparts, hb⟩) hreach)⟩
    have hfar : within t.stack w.low = ∅ := by
      refine within_eq_empty ht ?_
      rw [hl]
      simpa using hle
    rw [hkind]
    refine ⟨fun ⟨b, hsb, hb⟩ => ?_, fun n => ?_, fun hs => by cases hs⟩
    · exact h.safe_enter hd hparts b hb (hfar ▸ avoids_empty hsb)
    · rcases n with _ | _ | _ | n
      · exact iff_of_true (Nat.zero_le _) trivial
      · exact iff_of_true (by decide) (.inl hcycle)
      · exact iff_of_true (by decide) hcycle
      · exact iff_of_false (by simp [rank]) id

/-- Concluding a type from its own class or its parts. -/
theorem conclude_finds (ht : t.Good p) (hnew : t.stack.lookup id = none) (hd : p.get? id = some d)
    (hr : Finds p (t.enter id) (p.Unknown id) (fun w => (w.low = none ∧ p.Exact id w.kind) ∨ ∃ ids,
      parts? d = some ids ∧ Joins p (t.enter id).stack ids ⟨.scalar, none⟩ w) r) :
    Finds p t (p.Unknown id) (Sound p t.stack id)
      (conclude name t.stack.length id (r.1, r.2.leave id)) := by
  have hstack : (r.2.leave id).stack = t.stack := leave_stack hnew hr.stack
  have hgood : (r.2.leave id).Good p := ht.of_stack hstack hr.good.memo
  obtain ⟨e | w, u⟩ := r
  · exact ⟨hgood, hstack, fun _ _ => hr.error e rfl, fun v hv => by cases hv⟩
  · have hw := hr.ok w rfl
    rw [conclude]
    split
    · next hlow =>
      refine ⟨hgood, hstack, fun e he => (by cases he), fun v hv => ?_⟩
      cases hv
      rcases hw with ⟨hnone, hex⟩ | ⟨ids, hparts, hjoin⟩
      · exact sound_of_exact hnone hex
      · refine ⟨hjoin.sound hd hparts, fun l hl => ?_, hjoin.safe_enter hd hparts⟩
        obtain ⟨hkind, hnone | ⟨b, hb, s, hs, hreach⟩⟩ := hjoin.rests l hl
        · cases hnone
        · refine ⟨hkind, s, ?_, .head ((part_iff hd).2 ⟨ids, hparts, hb⟩) hreach⟩
          rcases mem_cons.1 hs with heq | hs
          · rw [hl, Option.any_some, (Prod.mk.inj heq).2] at hlow
            simp at hlow
          · exact hs
    · next hlow =>
      have hex : p.Exact id w.kind := by
        rcases hw with ⟨-, hex⟩ | ⟨ids, hparts, hjoin⟩
        · exact hex
        · cases hl : w.low with
          | none => exact hjoin.sound hd hparts hl
          | some l =>
            rw [hl] at hlow
            exact hjoin.exact_of_self ht hd hparts hl (by simpa using hlow)
      refine ⟨hgood.remember hex, hstack, fun e he => (by cases he), fun v hv => ?_⟩
      obtain rfl : (⟨w.kind, none⟩ : Verdict) = v := Except.ok.inj hv
      exact sound_of_exact rfl hex

/-- Every query finds what it should. The types in progress are distinct and
known, so there is room left for one more. -/
theorem classifyWithin_finds : ∀ (left : Nat) (t : Table) (id : TypeId), t.Good p →
    p.size + 2 ≤ left + t.stack.length →
    Finds p t (p.Unknown id) (Sound p t.stack id) (classifyWithin p left t id) := by
  intro left
  induction left with
  | zero =>
    intro t id ht hroom
    have := ht.length_le
    omega
  | succ left ih =>
    intro t id ht hroom
    rw [classifyWithin]
    cases hmemo : t.memo.lookup id with
    | some c =>
      refine ⟨ht, rfl, fun e he => (by cases he), fun v hv => ?_⟩
      obtain rfl : (⟨c, none⟩ : Verdict) = v := Except.ok.inj hv
      exact sound_of_exact rfl (ht.memo id c hmemo)
    | none =>
      dsimp only
      cases hnew : t.stack.lookup id with
      | some depth =>
        refine ⟨ht, rfl, fun e he => (by cases he), fun v hv => ?_⟩
        obtain rfl : (⟨definiteRef, some depth⟩ : Verdict) = v := Except.ok.inj hv
        have hmem := mem_of_lookup hnew
        refine ⟨fun h => (by cases h), fun l hl => ?_, fun b _ hav => ?_⟩
        · cases hl
          exact ⟨rfl, id, hmem, .refl⟩
        · exact hav.head_notMem ⟨depth, depth, rfl, le_rfl, hmem⟩
      | none =>
        dsimp only
        cases hd : p.get? id with
        | none =>
          exact ⟨ht, rfl, fun _ _ => ⟨id, .refl, hd⟩, fun v hv => by cases hv⟩
        | some d =>
          have henter := ht.enter hnew (hd ▸ rfl)
          refine conclude_finds ht hnew hd ?_
          cases hparts : parts? d with
          | none =>
            refine ⟨henter, rfl, fun e he => (by cases he), fun v hv => .inl ?_⟩
            obtain rfl : (⟨own p id d, none⟩ : Verdict) = v := Except.ok.inj hv
            refine ⟨rfl, fun hunk => ?_, ranks_of_own hd hparts, scalar_of_own hd hparts⟩
            rcases unknown_iff.1 hunk with hnone | ⟨b, hb, -⟩
            · cases hd.symm.trans hnone
            · obtain ⟨ids, hids, -⟩ := (part_iff hd).1 hb
              cases hparts.symm.trans hids
          | some ids =>
            have hroom' : p.size + 2 ≤ left + (t.enter id).stack.length := by
              rw [show (t.enter id).stack.length = t.stack.length + 1 from rfl]
              omega
            have hall := joinAll_finds (S := (t.enter id).stack)
              (fun u b hu hS => hS ▸ ih u b hu (hS ▸ hroom')) ids ⟨scalar, none⟩ _ henter rfl
              (fun l hl => by cases hl)
            refine ⟨hall.good, hall.stack, fun e he => ?_, fun w hw => .inr ⟨ids, rfl, hall.ok w hw⟩⟩
            obtain ⟨b, hb, hunk⟩ := hall.error e he
            exact unknown_iff.2 (.inr ⟨b, (part_iff hd).2 ⟨ids, hparts, hb⟩, hunk⟩)

-- ======== whatever is remembered

/-- An error does not depend on what is remembered. -/
theorem joinAll_error
    (hask : ∀ t id, t.Good p → t.stack = S → (ask t id).2.Good p ∧ (ask t id).2.stack = S)
    (herr : ∀ t u id e, t.Good p → u.Good p → t.stack = S → u.stack = S → (ask t id).1 = .error e →
      (ask u id).1 = .error e) :
    ∀ (ids : List TypeId) (v w : Verdict) (t u : Table) (e : ClassError), t.Good p → u.Good p →
      t.stack = S → u.stack = S → (joinAll ask v t ids).1 = .error e →
      (joinAll ask w u ids).1 = .error e := by
  intro ids
  induction ids with
  | nil =>
    intro v w t u e _ _ _ _ h
    cases h
  | cons id ids ih =>
    intro v w t u e ht hu htS huS h
    rw [joinAll] at h ⊢
    have htu := fun e => herr t u id e ht hu htS huS
    have hut := fun e => herr u t id e hu ht huS htS
    have ht' := hask t id ht htS
    have hu' := hask u id hu huS
    rcases hta : ask t id with ⟨e₁ | v₁, t'⟩ <;> rcases hua : ask u id with ⟨e₂ | v₂, u'⟩ <;>
      rw [hta] at h htu hut ht' <;> rw [hua] at htu hut hu'
    · obtain rfl : e₁ = e := Except.error.inj h
      exact htu e₁ rfl
    · cases htu e₁ rfl
    · cases hut e₂ rfl
    · exact ih _ _ t' u' e ht'.1 hu'.1 ht'.2 hu'.2 h

theorem conclude_error {depth : Nat} :
    (conclude name depth id r).1 = .error e ↔ ∃ e', r.1 = .error e' ∧ e = .inside name e' := by
  obtain ⟨e' | v, t⟩ := r
  · rw [conclude]
    exact ⟨fun h => ⟨e', rfl, (Except.error.inj h).symm⟩, fun ⟨_, h, he⟩ => by cases h; rw [he]⟩
  · rw [conclude]
    split <;> simp

/-- Tables with the same stack give the same errors. -/
theorem classifyWithin_error : ∀ (left : Nat) (t u : Table) (id : TypeId) (e : ClassError),
    t.Good p → u.Good p → t.stack = u.stack → p.size + 2 ≤ left + t.stack.length →
    (classifyWithin p left t id).1 = .error e → (classifyWithin p left u id).1 = .error e := by
  intro left
  induction left with
  | zero => exact fun t u id e _ _ _ _ h => h
  | succ left ih =>
    intro t u id e ht hu hS hroom h
    -- what an error says does not hold of a type that is remembered
    have hunk : p.Unknown id := (classifyWithin_finds (left + 1) t id ht hroom).error e h
    have hmemo : ∀ {s : Table}, s.Good p → s.memo.lookup id = none := by
      intro s hs
      cases hm : s.memo.lookup id with
      | none => rfl
      | some c => exact absurd hunk (hs.memo id c hm).known
    rw [classifyWithin, hmemo ht] at h
    rw [classifyWithin, hmemo hu]
    dsimp only at h ⊢
    rw [← hS]
    cases hnew : t.stack.lookup id with
    | some depth => rw [hnew] at h; cases h
    | none =>
      rw [hnew] at h
      dsimp only at h ⊢
      cases hd : p.get? id with
      | none => rw [hd] at h; exact h
      | some d =>
        rw [hd] at h
        dsimp only at h ⊢
        obtain ⟨e', he', rfl⟩ := conclude_error.1 h
        refine conclude_error.2 ⟨e', ?_, rfl⟩
        cases hparts : parts? d with
        | none => rw [hparts] at he'; cases he'
        | some ids =>
          rw [hparts] at he'
          have hent := ht.enter hnew (hd ▸ rfl)
          have henu := hu.enter (hS ▸ hnew) (hd ▸ rfl)
          have hSu : (u.enter id).stack = (t.enter id).stack := by
            simp only [Table.enter, hS]
          have hroom' : p.size + 2 ≤ left + (t.enter id).stack.length := by
            rw [show (t.enter id).stack.length = t.stack.length + 1 from rfl]
            omega
          refine joinAll_error (S := (t.enter id).stack) (fun s b hs hsS => ?_)
            (fun s s' b e hs hs' hsS hsS' => ih s s' b e hs hs' (hsS.trans hsS'.symm)
              (hsS ▸ hroom')) ids _ _ _ _ e' hent henu rfl hSu he'
          have hf := classifyWithin_finds left s b hs (hsS ▸ hroom')
          exact ⟨hf.good, hf.stack.trans hsS⟩

-- ======== queries from outside

/-- What there is to know about the answer of a query. -/
structure Answers (p : Pool) (id : TypeId) (r : Except ClassError Class) : Prop where
  error : (∃ e, r = .error e) ↔ p.Unknown id
  definite : r = .ok definiteRef ↔ ¬p.Unknown id ∧ p.Definite id
  possible : r = .ok possibleRef ↔ ¬p.Unknown id ∧ ¬p.Definite id ∧ p.Possible id
  scalar : r = .ok scalar ↔ ¬p.Unknown id ∧ ¬p.Definite id ∧ ¬p.Possible id

theorem Answers.of_unknown (h : p.Unknown id) : Answers p id (.error e) := by
  constructor <;> simp [h]

theorem Answers.of_exact (h : p.Exact id c) : Answers p id (.ok c) := by
  have hdef : p.Definite id ↔ 2 ≤ c.rank := (h.rank 2).symm
  have hpos : p.Definite id ∨ p.Possible id ↔ 1 ≤ c.rank := (h.rank 1).symm
  have hknown := h.known
  cases c <;> simp only [rank] at hdef hpos <;> constructor <;> simp_all

section

variable (ht : t.Good p) (hS : t.stack = []) (id : TypeId)
include ht hS

/-- The answer of a query from outside, when nothing is in progress. -/
theorem classify_finds :
    (classify p t id).2.Good p ∧ (classify p t id).2.stack = [] ∧
      (∀ e, (classify p t id).1 = .error e → p.Unknown id) ∧
      ∀ c, (classify p t id).1 = .ok c → p.Exact id c := by
  have hf := classifyWithin_finds (p.size + 2) t id ht (Nat.le_add_right _ _)
  rw [classify]
  rcases hr : classifyWithin p (p.size + 2) t id with ⟨e | v, t'⟩
  · rw [hr] at hf
    exact ⟨hf.good, hf.stack.trans hS, fun _ _ => hf.error e rfl, fun c hc => by cases hc⟩
  · rw [hr] at hf
    refine ⟨hf.good, hf.stack.trans hS, fun e he => (by cases he), fun c hc => ?_⟩
    cases hc
    have hv := hf.ok v rfl
    refine hv.exact (Option.eq_none_iff_forall_ne_some.2 fun l hl => ?_)
    obtain ⟨-, s, hs, -⟩ := hv.rests l hl
    rw [hS] at hs
    cases hs

/-- Every query is answered as it should be. -/
theorem classify_answers :
    Answers p id (classify p t id).1 := by
  obtain ⟨-, -, herr, hok⟩ := classify_finds ht hS id
  cases hr : (classify p t id).1 with
  | error e => exact .of_unknown (herr e hr)
  | ok c => exact .of_exact (hok c hr)

/-- The answer is the one of a new table. -/
theorem classify_eq :
    (classify p t id).1 = (classify p .empty id).1 := by
  have ha := classify_answers ht hS id
  have hb := classify_answers (good_empty (p := p)) rfl id
  cases hr : (classify p t id).1 with
  | error e =>
    rw [classify] at hr ⊢
    dsimp only at hr ⊢
    cases hw : (classifyWithin p (p.size + 2) t id).1 with
    | ok v => rw [hw] at hr; cases hr
    | error e' =>
      rw [hw] at hr
      have he := classifyWithin_error (p.size + 2) t .empty id e' ht good_empty hS
        (Nat.le_add_right _ _) hw
      rw [he]
      exact hr.symm
  | ok c =>
    rw [hr] at ha
    cases c with
    | scalar => exact (hb.scalar.2 (ha.scalar.1 rfl)).symm
    | possibleRef => exact (hb.possible.2 (ha.possible.1 rfl)).symm
    | definiteRef => exact (hb.definite.2 (ha.definite.1 rfl)).symm

end

/-- The table after queries. -/
def Table.after (p : Pool) (ids : List TypeId) : Table :=
  ids.foldl (fun t id => (classify p t id).2) .empty

/-- Queries one after the other leave a good table. -/
theorem after_good (p : Pool) (ids : List TypeId) :
    (Table.after p ids).Good p ∧ (Table.after p ids).stack = [] := by
  induction ids using reverseRecOn with
  | nil => exact ⟨good_empty, rfl⟩
  | append_singleton ids id ih =>
    obtain ⟨hgood, hstack, -⟩ := classify_finds ih.1 ih.2 id
    rw [Table.after, foldl_concat]
    exact ⟨hgood, hstack⟩

/-- What was asked before does not matter. -/
theorem classifyAll_eq : ∀ (ids : List TypeId) (t : Table), t.Good p → t.stack = [] →
    classifyAll p t ids = ids.mapM fun id => (classify p .empty id).1 := by
  intro ids
  induction ids with
  | nil => exact fun t _ _ => rfl
  | cons id ids ih =>
    intro t ht hS
    obtain ⟨hgood, hstack, -⟩ := classify_finds ht hS id
    rw [classifyAll, mapM_cons, ← classify_eq ht hS]
    rcases hr : classify p t id with ⟨e | c, t'⟩
    · rfl
    · rw [hr] at hgood hstack
      dsimp only
      rw [ih t' hgood hstack]
      rfl

/-- Classification is exact and does not depend on what was asked before. After
any queries, failed ones included, nothing is in progress, an answer is the one
of a new table and says what is reached, and the classes of all types are these
answers. -/
theorem classify_exact (p : Pool) (before : List TypeId) :
    (∀ id, Answers p id (classify p (.after p before) id).1 ∧
      (classify p (.after p before) id).1 = (classify p .empty id).1) ∧
    (Table.after p before).stack = [] ∧
    Classes.freeze p (.after p before) = (((List.range p.size).map Int.ofNat).mapM fun id =>
      (classify p .empty id).1).map List.toArray := by
  obtain ⟨hgood, hstack⟩ := after_good p before
  refine ⟨fun id => ⟨classify_answers hgood hstack id, classify_eq hgood hstack id⟩, hstack, ?_⟩
  rw [Classes.freeze, classifyAll_eq _ _ hgood hstack]

end Class

/-- A type without counts is scalar. -/
theorem Classes.scalar_of_not_counted {p : Pool} {cs : Classes} (h : ofPool p = .ok cs)
    {t : TypeId} {d : TypeDef} (ht : p.get? t = some d) (hc : cs.needsCount t = false) :
    p.Scalar t := by
  rw [ofPool, freeze, Class.classifyAll_eq _ _ Class.good_empty rfl] at h
  cases hl : ((List.range p.size).map Int.ofNat).mapM fun id => (Class.classify p .empty id).1 with
  | error e => rw [hl] at h; cases h
  | ok l =>
    rw [hl] at h
    cases h
    have hall := mapM_ok hl
    unfold Pool.get? at ht
    split at ht
    · cases ht
    · next hneg =>
      have hlt : t.toNat < p.size := (Array.getElem?_eq_some_iff.1 ht).1
      have hlen : t.toNat < l.length := by
        rw [← hall.length_eq]
        simpa using hlt
      have hclass := hall.get (i := t.toNat) (by simpa using hlt) hlen
      simp only [get_eq_getElem, getElem_map, getElem_range, Int.ofNat_eq_natCast,
        Int.toNat_of_nonneg (not_lt.1 hneg)] at hclass
      refine ((Class.classify_finds Class.good_empty rfl t).2.2.2 _ hclass).scalar ?_
      unfold needsCount find at hc
      rw [if_neg hneg, getElem?_toArray, getElem?_eq_getElem hlen] at hc
      simpa [Class.needsCount] using hc

end RefCount
