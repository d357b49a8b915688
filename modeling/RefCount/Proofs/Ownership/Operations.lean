/-
What operations of the machine do to who holds what. An operation takes
references over, keeps what others hold, and gives a value with a reference of
its own; the tree of the value is the one that the plain operation gives
(`Yields`).
-/
import Mathlib
import RefCount.Proofs.Heap.Release
import RefCount.Proofs.Plain.Machine

namespace RefCount.Ownership

open Ir List Except
open Machine
open Machine.Value (refsAll)

/-- A value is given with a reference of its own; what is in reach of `B`
stays as it was, and the value denotes a tree. -/
structure Yields (pool : Pool) (B : Multiset Address) (h : Heap) (t : Option Machine.Tree)
    (v : Value) (w : World) : Prop where
  exact : w.heap.Exact (B + v.refs)
  keeps : Heap.Keeps B h w.heap
  tree : t = some (treeOf pool w.heap v)

variable {pool : Pool} {B : Multiset Address} {w : World}

variable {v : Value}

/-- A value without references changes nothing. -/
theorem yields_bare {t : Option Machine.Tree} (hx : w.heap.Exact B)
    (hv : v.refs = 0) (ht : t = some (treeOf pool w.heap v)) : Yields pool B w.heap t v w where
  exact := by rwa [hv, add_zero]
  keeps := .refl
  tree := ht

theorem live_of_within (hx : w.heap.Exact B) (hv : Within w.heap B v)
    {p : Address} (hp : p ∈ v.refs) : w.heap.Live p :=
  hx.live_of_reach le_rfl (hv p hp)

-- ======== new objects

/-- The alignments that objects have. -/
theorem nextBase_one (h : Heap) : h.nextBase 1 = h.nextBase Heap.wordSize := rfl

/-- A new object takes over what its fields hold. -/
theorem allocate_safe {size align : Int64} {o : Object} {t : Option Machine.Tree}
    (halign : w.heap.nextBase align = w.heap.nextBase Heap.wordSize)
    (hroom : w.heap.HasRoom) (hx : w.heap.Exact (B + refsAll o.fields))
    (ht : t = some (.node (.object (pool.underlying o.type) o.variant o.str o.func
      o.fields.length) (o.fields.map (treeOf pool w.heap)))) :
    Safe (allocate size align o) w (Yields pool B w.heap t) := by
  have hvacant : w.heap.cell? (w.heap.allocate size align o).1 = none := by
    show w.heap.cell? (w.heap.nextBase align + Heap.wordSize) = none
    rw [halign]
    exact hroom
  have hkeeps := @Heap.keeps_allocate _ _ size align _ hx hvacant
  have hfields : o.fields.map (treeOf pool (w.heap.allocate size align o).2) =
      o.fields.map (treeOf pool w.heap) := by
    refine map_congr_left fun u hu => treeOf_keeps (fun p hp => ?_) hkeeps
    exact .root (Multiset.mem_add.2 (.inr (Value.mem_refsAll.2 ⟨u, hu, hp⟩)))
  rw [add_comm] at hx
  refine .allocate ⟨?_, hkeeps.mono (Multiset.le_add_right B _), ?_⟩
  · rw [Value.refs_ref, add_comm]
    exact hx.allocate hvacant
  · rw [ht, treeOf_ref (h := (w.heap.allocate size align o).2)
      (by rw [Heap.obj_allocate, if_pos rfl])]
    exact congrArg (fun ts => some (Machine.Tree.node _ ts)) hfields.symm

/-- A new string. -/
theorem newStr_safe (s : Bytes) (hroom : w.heap.HasRoom) (hx : w.heap.Exact B) :
    Safe (newStr s) w (Yields pool B w.heap (some (Plain.str pool s))) := by
  refine allocate_safe (nextBase_one _) hroom ?_ rfl
  rw [Value.refsAll_nil, add_zero]
  exact hx

theorem literalValue_safe (l : Literal) (hroom : w.heap.HasRoom) (hx : w.heap.Exact B) :
    Safe (literalValue l) w (Yields pool B w.heap (some (Plain.literal pool l))) := by
  cases l with
  | str s => exact newStr_safe s hroom hx
  | unit => exact .pure (yields_bare hx Value.refs_unit (by rw [treeOf_unit]; rfl))
  | float x => exact .pure (yields_bare hx (Value.refs_float _) (by rw [treeOf_float]; rfl))
  | bool b => exact .pure (yields_bare hx (Value.refs_int _) (by rw [Value.ofBool, treeOf_int]; rfl))
  | _ => exact .pure (yields_bare hx (Value.refs_int _) (by rw [treeOf_int]; rfl))

/-- A new closure. -/
theorem newClosure_safe {t : TypeId} {func : String} {captures : List Value}
    (hroom : w.heap.HasRoom) (hx : w.heap.Exact (B + refsAll captures)) :
    Safe (newClosure t func captures) w (Yields pool B w.heap
      (some (Plain.closure pool t func (captures.map (treeOf pool w.heap))))) := by
  refine allocate_safe rfl hroom hx ?_
  rw [Plain.closure, length_map]

/-- A constructed value takes over its fields. An enum without payload has
none. -/
theorem construct_safe {env : Env} {t : TypeId} {variant : Int} {args : List Value}
    (hroom : w.heap.HasRoom) (hx : w.heap.Exact (B + refsAll args))
    (hbare : ∀ d, env.pool.shape? t = some d → d.kind ≠ .tuple →
      env.pool.isBoxed t = false → args = []) :
    Safe (construct env t variant args) w (Yields env.pool B w.heap
      (Plain.construct env.pool t variant (args.map (treeOf env.pool w.heap)))) := by
  unfold construct Plain.construct
  cases hshape : env.pool.shape? t with
  | none => exact Safe.fault
  | some shape =>
    rw [Option.map_some, length_map]
    dsimp only
    split
    · next hkind =>
      refine .pure ⟨?_, .refl, ?_⟩
      · rw [Value.refs_tuple]
        exact hx
      · rw [treeOf_tuple]
    · next hkind =>
      split
      · exact allocate_safe rfl hroom hx rfl
      · next hboxed =>
        obtain rfl := hbare shape hshape hkind (by simpa using hboxed)
        rw [Value.refsAll_nil, add_zero] at hx
        exact .pure (yields_bare hx (Value.refs_int _) (by rw [treeOf_int]))

-- ======== operations

/-- A value that denotes an object is a reference to one. -/
theorem ref_of_isObject (h : Plain.isObject (treeOf pool w.heap v) = true) :
    ∃ p c, v = .ref p ∧ w.heap.find p = .ok c ∧
      (treeOf pool w.heap v).label? = some (.object (pool.underlying c.object.type)
        c.object.variant c.object.str c.object.func c.object.fields.length) := by
  unfold Plain.isObject at h
  rw [label_treeOf] at h ⊢
  cases v with
  | ref p =>
    rw [labelOf] at h ⊢
    cases hf : w.heap.find p with
    | error e =>
      unfold Heap.obj? at h
      rw [hf] at h
      cases h
    | ok c => exact ⟨p, c, rfl, hf, by rw [Heap.obj_of_find hf]; rfl⟩
  | _ => cases h

/-- What a value is read as does not depend on the heap. -/
theorem toInt_treeOf (v : Value) : Plain.toInt (treeOf pool w.heap v) = v.toInt := by
  unfold Plain.toInt
  rw [label_treeOf]
  cases v with
  | ref p =>
    rw [labelOf]
    cases w.heap.obj? p <;> rfl
  | _ => rfl

theorem toFloat_treeOf (v : Value) : Plain.toFloat (treeOf pool w.heap v) = v.toFloat := by
  unfold Plain.toFloat
  rw [label_treeOf]
  cases v with
  | ref p =>
    rw [labelOf]
    cases w.heap.obj? p <;> rfl
  | _ => rfl

variable {op : Op}

/-- The texts of operands. -/
theorem operandTexts_safe : ∀ {args : List Value} (i : Nat),
    (∀ v ∈ args, Plain.isObject (treeOf pool w.heap v) = true) →
    Safe ((args.zipIdx i).mapM fun (v, i) => do
        return (← inContext (.inOperand op i) (objectAt v.address)).str) w
      fun texts w' => w' = w ∧
        (args.map (treeOf pool w.heap)).mapM Plain.text? = some texts := by
  intro args
  induction args with
  | nil => exact fun i _ => .pure ⟨rfl, rfl⟩
  | cons v args ih =>
    intro i hargs
    obtain ⟨p, c, rfl, hc, hl⟩ := ref_of_isObject (hargs v mem_cons_self)
    rw [zipIdx_cons, mapM_cons]
    refine .bind (.bind (Safe.inContext (fun _ => rfl) (.objectAt hc (.pure ?_))))
    refine .bind ((ih (i + 1) fun u hu => hargs u (mem_cons_of_mem _ hu)).mono ?_)
    rintro texts w' ⟨rfl, htexts⟩
    refine .pure ⟨rfl, ?_⟩
    have htext : Plain.text? (treeOf pool w'.heap (.ref p)) = some c.object.str := by
      unfold Plain.text?
      rw [hl]
    rw [map_cons, mapM_cons, htext, htexts]
    rfl

/-- An operation on strings. -/
theorem strPrim_safe {args : List Value} (hroom : w.heap.HasRoom) (hx : w.heap.Exact B)
    (hargs : ∀ v ∈ args, Plain.isObject (treeOf pool w.heap v) = true) :
    Safe (strPrim op args) w (Yields pool B w.heap
      (((args.map (treeOf pool w.heap)).mapM Plain.text?).bind (Plain.strPrim pool op))) := by
  unfold strPrim operandTexts
  refine .bind ((operandTexts_safe 0 hargs).mono ?_)
  rintro texts w' ⟨rfl, htexts⟩
  rw [htexts, Option.bind_some]
  unfold Plain.strPrim
  split
  · exact newStr_safe _ hroom hx
  · exact .pure (yields_bare hx (Value.refs_int _) (congrArg some (treeOf_int _).symm))
  · exact .pure (yields_bare hx (Value.refs_int _)
      (by rw [Value.ofBool, treeOf_int]; simp only [decide_eq_true_eq]))
  · exact .pure (yields_bare hx (Value.refs_int _)
      (by rw [Value.ofBool, treeOf_int]; simp only [decide_eq_true_eq]))
  · exact Safe.fault

/-- Arithmetic gives a number, which holds nothing. -/
theorem scalar_safe {e : Except RunError Value} (hx : w.heap.Exact B)
    (he : ∀ v, e = .ok v → (∃ n, v = .int n) ∨ ∃ x, v = .float x)
    (hclean : ∀ e', e = .error e' → e'.Clean) :
    Safe (prim.liftExcept e) w (Yields pool B w.heap (Plain.scalar? e)) := by
  cases e with
  | error e' => exact .throw (hclean e' rfl)
  | ok v =>
    rcases he v rfl with ⟨n, rfl⟩ | ⟨x, rfl⟩
    · exact .pure (yields_bare hx (Value.refs_int n) (by rw [treeOf_int]; rfl))
    · exact .pure (yields_bare hx (Value.refs_float x) (by rw [treeOf_float]; rfl))

theorem intPrim_scalar {x y : Int64} :
    (∀ v, intPrim op x y = .ok v → (∃ n, v = .int n) ∨ ∃ x, v = .float x) ∧
      ∀ e, intPrim op x y = .error e → e.Clean := by
  constructor
  · intro v h
    left
    unfold intPrim at h
    split at h
    all_goals first
      | exact ⟨_, (ok.inj h).symm⟩
      | (split at h
         · cases h
         · exact ⟨_, (ok.inj h).symm⟩)
      | cases h
  · intro e h
    unfold intPrim at h
    split at h
    all_goals first
      | (obtain rfl := error.inj h
         exact fun _ h => RunError.noConfusion h)
      | (split at h
         · obtain rfl := error.inj h
           exact fun _ h => RunError.noConfusion h
         · cases h)
      | cases h

theorem floatPrim_scalar {x y : Float} :
    (∀ v, floatPrim op x y = .ok v → (∃ n, v = .int n) ∨ ∃ x, v = .float x) ∧
      ∀ e, floatPrim op x y = .error e → e.Clean := by
  constructor
  · intro v h
    unfold floatPrim at h
    split at h
    all_goals first
      | exact .inr ⟨_, (ok.inj h).symm⟩
      | exact .inl ⟨_, (ok.inj h).symm⟩
      | cases h
  · intro e h
    unfold floatPrim at h
    split at h
    all_goals first
      | (obtain rfl := error.inj h
         exact fun _ h => RunError.noConfusion h)
      | cases h

/-- The operations on strings are the same ones. -/
theorem isStringOp_treeOf {args : List Value} (hlive : ∀ v ∈ args, ∀ p ∈ v.refs, w.heap.Live p) :
    Plain.isStringOp op (args.map (treeOf pool w.heap)) = isStringOp op args := by
  unfold Plain.isStringOp isStringOp
  congr 1
  congr 1
  cases args with
  | nil => rfl
  | cons v args =>
    have hobj : Plain.isObject (treeOf pool w.heap v) = decide (v.kind = 3) := by
      unfold Plain.isObject
      rw [label_treeOf]
      cases v with
      | ref p =>
        obtain ⟨o, ho⟩ := Option.isSome_iff_exists.1 (hlive (.ref p) mem_cons_self p (by simp))
        rw [labelOf, ho]
        rfl
      | _ => rfl
    simp [hobj]

/-- A primitive operation only looks at its operands. -/
theorem prim_safe {args : List Value} (hroom : w.heap.HasRoom)
    (hx : w.heap.Exact B) (hargs : ∀ v ∈ args, Within w.heap B v)
    (hasks : Plain.isStringOp op (args.map (treeOf pool w.heap)) = true →
      ∀ v ∈ args, Plain.isObject (treeOf pool w.heap v) = true) :
    Safe (prim op args) w (Yields pool B w.heap
      (Plain.prim pool op (args.map (treeOf pool w.heap)))) := by
  have hop := @isStringOp_treeOf pool _ op _
    fun v hv p hp => live_of_within hx (hargs v hv) hp
  unfold prim Plain.prim
  rw [hop] at hasks ⊢
  split
  · next hs => exact strPrim_safe hroom hx (hasks hs)
  · cases args with
    | nil => exact Safe.fault
    | cons v args =>
      rw [map_cons]
      dsimp only
      have hint : Plain.toInt ((args.map (treeOf pool w.heap)).headD (.leaf .unit)) =
          (args.headD .unit).toInt := by
        cases args with
        | nil => rfl
        | cons u args => exact toInt_treeOf u
      have hfloat : Plain.toFloat ((args.map (treeOf pool w.heap)).headD (.leaf .unit)) =
          (args.headD .unit).toFloat := by
        cases args with
        | nil => rfl
        | cons u args => exact toFloat_treeOf u
      rw [hint, hfloat, toInt_treeOf, label_treeOf]
      have hnumber := @scalar_safe pool _ _ _ hx
        (@intPrim_scalar op v.toInt (args.headD .unit).toInt).1
        intPrim_scalar.2
      cases v with
      | float x => exact scalar_safe hx floatPrim_scalar.1 floatPrim_scalar.2
      | ref p =>
        rw [labelOf]
        cases w.heap.obj? p <;> exact hnumber
      | _ => exact hnumber

-- ======== fields

theorem elementAt_safe {xs : List Value} {i : Int} {Q : Value → World → Prop}
    (h : 0 ≤ i → ∀ u, xs[i.toNat]? = some u → Q u w) : Safe (elementAt xs i) w Q := by
  unfold elementAt
  split
  · next u hu =>
    split at hu
    · cases hu
    · next hi => exact .pure (h (not_lt.1 hi) u hu)
  · exact Safe.fault

/-- A field of a value that is there. -/
theorem project_safe {variant field : Int} (hlive : ∀ p ∈ v.refs, w.heap.Live p) :
    Safe (project v variant field) w fun u w' => w' = w ∧
      (partsOf w.heap v)[field.toNat]? = some u ∧
      Plain.project (treeOf pool w.heap v) variant field = some (treeOf pool w.heap u) := by
  unfold project
  cases v with
  | tuple elems =>
    dsimp only
    split
    · exact .throw fun _ h => RunError.noConfusion h
    · next hlt =>
      refine elementAt_safe fun h0 u hu => ⟨rfl, hu, ?_⟩
      unfold Plain.project
      rw [label_treeOf, labelOf]
      dsimp only
      rw [if_pos ⟨h0, not_le.1 hlt⟩, child_treeOf (v := .tuple elems) hu]
  | ref p =>
    obtain ⟨c, hc⟩ := (hlive p (by simp)).find
    refine .bind (.objectAt hc ?_)
    have hparts : partsOf w.heap (.ref p) = c.object.fields := by
      rw [partsOf, Heap.obj_of_find hc]
      rfl
    split
    · exact .throw fun _ h => RunError.noConfusion h
    · next hcond =>
      simp only [Bool.or_eq_true, decide_eq_true_eq, not_or, not_not, not_le] at hcond
      refine elementAt_safe fun h0 u hu => ⟨rfl, by rw [hparts]; exact hu, ?_⟩
      unfold Plain.project
      rw [label_treeOf, labelOf, Heap.obj_of_find hc]
      dsimp only [Option.map_some]
      rw [if_pos ⟨hcond.1, h0, hcond.2⟩, child_treeOf (v := .ref p) (by rw [hparts]; exact hu)]
  | _ => exact .throw fun _ h => RunError.noConfusion h

/-- The tag of a value. -/
theorem tagOf_safe (hx : w.heap.Exact B) (hv : Within w.heap B v) :
    Safe (tagOf v) w (Yields pool B w.heap (Plain.tagOf (treeOf pool w.heap v))) := by
  unfold tagOf Plain.tagOf
  rw [label_treeOf]
  cases v with
  | int n => exact .pure (yields_bare hx (Value.refs_int n) (by rw [treeOf_int]; rfl))
  | ref p =>
    obtain ⟨c, hc⟩ := (live_of_within hx hv (p := p) (by simp)).find
    refine .bind (.objectAt hc (.pure (yields_bare hx (Value.refs_int _) ?_)))
    rw [labelOf, Heap.obj_of_find hc, treeOf_int]
    rfl
  | _ => exact .throw fun _ h => RunError.noConfusion h

end RefCount.Ownership
