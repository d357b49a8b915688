/-
The code that updates a value in place. It reads the value and its new fields
only, and defines new variables for the old fields that it releases (`Updates`).
The variables that claim fields are defined and counted before the reset, so
their counts can be left out there and made up for where the value is shared.
-/
import Mathlib
import RefCount.Proofs.Count.Eliminate
import RefCount.Proofs.Reuse.Nest

namespace RefCount.Reuse

open Ir RefCount.Count List

-- ======== claims

section Claims

variable {v u : Var} {between code : List Instr} {taken : List Int} {claims : Claims}

/-- A variable that claims a field is defined, and counted up. -/
theorem mem_claimsIn {p : Var × Int} (h : p ∈ claimsIn v between taken code) :
    p.1 ∈ code.filterMap Instr.def? ∧ .inc p.1 ∈ code ++ between := by
  induction code generalizing taken with
  | nil => cases h
  | cons x code ih =>
    have hlater : ∀ {taken}, p ∈ claimsIn v between taken code →
        p.1 ∈ (x :: code).filterMap Instr.def? ∧ .inc p.1 ∈ (x :: code) ++ between := by
      intro taken h
      obtain ⟨hdef, hinc⟩ := ih h
      refine ⟨?_, mem_cons_of_mem x hinc⟩
      obtain ⟨y, hy, hd⟩ := mem_filterMap.1 hdef
      exact mem_filterMap.2 ⟨y, mem_cons_of_mem x hy, hd⟩
    unfold claimsIn at h
    split at h
    · rename_i dst src variant field
      split at h
      · rename_i hclaim
        rcases mem_cons.1 h with rfl | h
        · refine ⟨mem_filterMap.2 ⟨_, .head _, rfl⟩, .tail _ ?_⟩
          rw [Bool.and_eq_true] at hclaim
          have hcounted := hclaim.2
          unfold isCountedOnly at hcounted
          split at hcounted
          · rename_i w hfilter
            have hmem : Instr.inc w ∈ (code ++ between).filter (·.usesVar dst) := by
              rw [hfilter]
              exact mem_singleton_self _
            obtain ⟨hmem, huses⟩ := mem_filter.1 hmem
            have hw : dst = w := mem_singleton.1 (contains_iff_mem.1 huses : dst ∈ [w])
            rwa [hw]
          · cases hcounted
        · exact hlater h
      · exact hlater h
    · exact hlater h

theorem mem_vars : u ∈ claims.vars ↔ ∃ p ∈ claims, p.1 = u := by
  unfold Claims.vars
  rw [mem_mergeSort, mem_eraseDups, mem_map]

/-- Only counts are left out. -/
theorem strip_thins (claims : Claims) (code : List Instr) : Thins code (claims.strip code) := by
  refine Thins.filter fun x _ hx => ?_
  cases x with
  | inc => rfl
  | _ => cases hx

/-- Taking out counts opens nothing. -/
theorem opened?_strip (claims : Claims) {tokens : List Var} (code : List Instr) :
    opened? tokens (claims.strip code) = opened? tokens code := by
  refine opened?_filter fun x hx => ?_
  cases x with
  | reset | reuse => rfl
  | _ => cases hx

end Claims

-- ======== in place

section Update

variable {pool : Pool} {cls : Classes} {f : Func} {claims : Claims} {v : Var} {old : Int}
  {r : Rebuild} {args : List Var}

/-- Code that updates a value: it defines the next variables, and reads them,
the value and its new fields. -/
structure Updates (f : Func) (v : Var) (args : List Var) (code : List Instr) (g : Func)
    (more : List TypeId) : Prop where
  func : g = { f with types := f.types ++ more.toArray }
  defs : code.filterMap Instr.def? = List.range' f.types.size more.length
  supports : Supports (fun u => u = v ∨ u ∈ args) code []
  keyless : ∀ x ∈ code, isKey x = false

variable {more : List TypeId} {code : List Instr} {g : Func}

theorem Updates.plain (h : Updates f v args code g more) : ∀ x ∈ code, isPlain x = true :=
  fun x hx => isPlain_of_not_isKey (h.keyless x hx)

/-- No update. -/
theorem updates_nil (f : Func) (v : Var) (args : List Var) : Updates f v args [] f [] where
  func := by simp
  defs := rfl
  supports u hu := nomatch hu
  keyless x hx := nomatch hx

/-- With instructions that define nothing. -/
theorem Updates.append {code' : List Instr} (h : Updates f v args code g more)
    (h' : ∀ x ∈ code', x.def? = none ∧ isKey x = false ∧ ∀ u ∈ x.uses, u = v ∨ u ∈ args) :
    Updates f v args (code ++ code') g more where
  func := h.func
  defs := by
    rw [filterMap_append, h.defs, filterMap_eq_nil_iff.2 fun x hx => (h' x hx).1,
      append_nil]
  supports := by
    refine supports_append.2 ⟨h.supports, supports_of_forall fun u hu => .inl ?_⟩
    rw [append_nil] at hu
    obtain ⟨x, hx, hu⟩ := mem_flatMap.1 hu
    exact (h' x hx).2.2 u hu
  keyless x hx := (mem_append.1 hx).elim (h.keyless x) fun hx => (h' x hx).2.1

/-- With the release of an old field. -/
theorem Updates.project (h : Updates f v args code g more) (variant field : Int) (t : TypeId) :
    Updates f v args (code ++ [.project g.types.size v variant field, .dec g.types.size])
      (g.newVar t).2 (more ++ [t]) where
  func := by simp [Func.newVar, h.func]
  defs := by
    rw [filterMap_append, h.defs, length_append, length_singleton, range'_concat, h.func]
    simp [Instr.def?]
  supports := by
    refine supports_append.2 ⟨h.supports, fun u hu => ?_, fun u hu => ?_, fun u hu => ?_⟩
    · exact .inl (.inl (mem_singleton.1 hu))
    · exact .inr (congrArg some (mem_singleton.1 hu).symm)
    · cases hu
  keyless x hx := by
    rcases mem_append.1 hx with hx | hx
    · exact h.keyless x hx
    · rcases mem_cons.1 hx with rfl | hx
      · rfl
      · rw [mem_singleton.1 hx]
        rfl

/-- A field that goes is released, unless it stays. -/
theorem releaseField_updates (cls : Classes) (claims : Claims) (old : Int)
    {stays : List (Var × Bool)} {s : List Instr × Func}
    (hstays : ∀ p ∈ stays, p.1 ∈ args) (h : Updates f v args s.1 s.2 more)
    (field : TypeId × Nat) : ∃ more', Updates f v args
      (releaseField cls claims v old stays s field).1
      (releaseField cls claims v old stays s field).2 more' := by
  unfold releaseField
  dsimp only
  split
  · rename_i a hk
    split
    · refine ⟨more, h.append fun x hx => ?_⟩
      rw [mem_singleton.1 hx]
      refine ⟨rfl, rfl, fun u hu => ?_⟩
      rw [mem_singleton.1 hu]
      exact .inr (hstays _ (mem_of_getElem? hk))
    · exact ⟨more, h⟩
  · split
    · exact ⟨more, h⟩
    · split
      · exact ⟨more ++ [field.1], h.project old field.2 field.1⟩
      · exact ⟨more, h⟩

/-- An object is updated in place. -/
theorem updateInPlace_updates (pool : Pool) (cls : Classes) (f : Func) (claims : Claims) (v : Var)
    (old : Int) (r : Rebuild) : ∃ more, Updates f v r.args
      (updateInPlace pool cls f claims v old r).1 (updateInPlace pool cls f claims v old r).2.1
      more := by
  unfold updateInPlace
  dsimp only
  set oldTypes := (pool.fields (f.typeOf v) old).toOption.getD []
  set stays := r.args.zipIdx.map fun p =>
    (p.1, staysPut f claims v oldTypes.length p.1 p.2) with hstaysDef
  have hstays : ∀ p ∈ stays, p.1 ∈ r.args := by
    intro p hp
    obtain ⟨q, hq, rfl⟩ := mem_map.1 hp
    exact fst_mem_of_mem_zipIdx hq
  -- the old fields, one after the other
  have hfold : ∀ (fields : List (TypeId × Nat)) (s : List Instr × Func) (more : List TypeId),
      Updates f v r.args s.1 s.2 more → ∃ more', Updates f v r.args
        (fields.foldl (releaseField cls claims v old stays) s).1
        (fields.foldl (releaseField cls claims v old stays) s).2 more' := by
    intro fields
    induction fields with
    | nil => exact fun s more h => ⟨more, h⟩
    | cons field fields ih =>
      intro s more h
      obtain ⟨more', h'⟩ := releaseField_updates cls claims old hstays h field
      exact ih _ more' h'
  obtain ⟨more, hreleased⟩ := hfold oldTypes.zipIdx ([], f) [] (updates_nil f v r.args)
  refine ⟨more, (hreleased.append fun x hx => ?_).append fun x hx => ?_⟩
  · obtain ⟨p, hp, hx⟩ := mem_filterMap.1 hx
    split at hx
    · cases hx
    · cases hx
      refine ⟨rfl, rfl, fun u hu => ?_⟩
      rcases mem_cons.1 hu with rfl | hu
      · exact .inl rfl
      · rw [mem_singleton.1 hu]
        exact .inr (hstays _ (fst_mem_of_mem_zipIdx hp))
  · split at hx
    · cases hx
    · rw [mem_singleton.1 hx]
      exact ⟨rfl, rfl, fun u hu => .inl (mem_singleton.1 hu)⟩

end Update

end RefCount.Reuse
