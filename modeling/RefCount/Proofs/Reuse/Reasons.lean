/-
The report on a function whose releases have been paired tells the truth. It
names one pair for each reuse, with the variable that is reset in front of it,
and gives one reason for each release that is left.

# The argument

All reasons but the last are read off the code. The last one, that the value is
used, is also given if nothing is found that speaks against a pair, and then it
must be the construction itself that uses the value. For when the release was
looked at, it could not be paired: either its variant was not known, or the way
to a construction of its type was barred (`Barred`). Pairs made afterwards take
no bar away, since a construction becomes a reuse and a release a reset of the
same variable (`Becomes`), and do not touch what the search for a variant looks
at. So what held when the release was passed holds at the end (`Settled`).
-/
import Mathlib
import RefCount.Proofs.Ir.DominatorTree
import RefCount.Proofs.Reuse.Report

namespace RefCount.Reuse

open Ir List Option

variable {pool : Pool} {f g : Func} {b c : BlockId} {block : Block} {v : Var} {t : TypeId}
  {i k : Nat} {code code' : List Instr}

-- ======== what bars a pair

/-- An instruction that reuses. -/
def isReuse : Instr → Bool
  | .reuse _ _ _ _ _ => true
  | _ => false

/-- Whether an instruction builds a value of a type. -/
def builds (t : TypeId) : Instr → Bool
  | .construct _ type _ _ => type = t
  | _ => false

/-- Whether the value of a variable meets a use of it or another reuse before a
construction of a type. -/
inductive Barred (v : Var) (t : TypeId) : List Instr → Prop
  | done : Barred v t []
  | stop {x : Instr} {code : List Instr} (h : isReuse x = true ∨ v ∈ x.uses) :
      Barred v t (x :: code)
  | skip {x : Instr} {code : List Instr} (hx : builds t x = false) (h : Barred v t code) :
      Barred v t (x :: code)

/-- If nothing bars the way to a construction, it uses the value itself. -/
theorem Barred.mem_uses {mid post : List Instr} {x : Instr} (h : Barred v t (mid ++ x :: post))
    (hreuse : ∀ y ∈ mid, isReuse y = false) (huse : ∀ y ∈ mid, v ∉ y.uses)
    (hx : builds t x = true) : v ∈ x.uses := by
  induction mid with
  | nil =>
    cases h with
    | stop h =>
      rcases h with h | h
      · cases x <;> first | cases hx | cases h
      · exact h
    | skip h => rw [hx] at h; cases h
  | cons y mid ih =>
    cases h with
    | stop h =>
      rcases h with h | h
      · rw [hreuse y mem_cons_self] at h
        cases h
      · exact absurd h (huse y (.head _))
    | skip _ h =>
      exact ih h (fun z hz => hreuse z (mem_cons_of_mem y hz))
        fun z hz => huse z (mem_cons_of_mem y hz)

/-- Pairing leaves what bars the way. -/
theorem Barred.becomes (h : Barred v t code) (hcode : Forall₂ Becomes code code') :
    Barred v t code' := by
  induction hcode with
  | nil => exact .done
  | cons hxy _ ih =>
    cases hxy with
    | same x =>
      cases h with
      | stop h => exact .stop h
      | skip hx h => exact .skip hx (ih h)
    | reset token v =>
      cases h with
      | stop h =>
        rcases h with h | h
        · cases h
        · exact .stop (.inr h)
      | skip hx h => exact .skip rfl (ih h)
    | reuse r token => exact .stop (.inl rfl)

theorem Becomes.dec {x : Instr} (h : Becomes x (.dec v)) : x = .dec v := by
  cases h
  rfl

-- ======== the releases that have been passed

/-- What keeps the release at a place, if there is one. -/
def Settled (pool : Pool) (f : Func) (c : BlockId) (k : Nat) : Prop :=
  ∀ block v t, f.block? c = some block → block.code[k]? = some (.dec v) → f.type? v = some t →
    pool.isBoxed t = true → Barred v t (block.code.drop (k + 1)) ∨
      knownVariant? pool f block.id (block.code.take k) v = .ok none

theorem lt_of_dec (hf : Valid .counted f) (hblock : f.block? b = some block)
    (hdec : block.code[k]? = some (.dec v)) : v < f.types.size :=
  hf.bound v (hf.defined block (Array.mem_of_getElem? hblock) v (mem_append_left _
    (mem_flatMap.2 ⟨_, mem_of_getElem? hdec, mem_singleton_self v⟩)))

/-- A pair made elsewhere leaves a release settled. -/
theorem Settled.pairedFunc (h : Settled pool f c k) (hf : Valid .counted f)
    (hblock : f.block? b = some block) (p : Pairing pool f block i) :
    Settled pool (p.pairedFunc b) c k := by
  intro block' v t hblock' hdec ht hboxed
  have hr := p.replaces hf.toWellFormed hblock
  -- the block has become what it is
  obtain ⟨old, hold, hid, hcode⟩ : ∃ old, f.block? c = some old ∧ block'.id = old.id ∧
      Forall₂ Becomes old.code block'.code := by
    rcases hr.block_cases hblock' with ⟨rfl, rfl⟩ | ⟨-, hold⟩ | ⟨j, -, hj⟩
    · exact ⟨block, hblock, rfl, p.becomes⟩
    · exact ⟨block', hold, rfl, forall₂_same.2 fun x _ => .same x⟩
    · cases hj
  obtain ⟨x, hx, hbecomes⟩ := forall₂_getElem? hcode.flip hdec
  obtain rfl := Becomes.dec hbecomes
  have hv := lt_of_dec hf hold hx
  rw [p.type?_pairedFunc hv] at ht
  rw [hid, p.knownVariant?_eq hblock hv _ (map_evidence_of_becomes (forall₂_take k hcode)).symm]
  exact (h old v t hold hx ht hboxed).imp (·.becomes (forall₂_drop (k + 1) hcode)) id

/-- Each reuse stands behind the reset of its token. -/
def Matched (f : Func) : Prop :=
  ∀ block ∈ f.blocks, ∀ (i : Nat) dst token type variant args,
    block.code[i]? = some (.reuse dst token type variant args) →
      ∃ j < i, ∃ v, block.code[j]? = some (.reset token v)

/-- With a pair more, resets and reuses still match. -/
theorem Matched.pairedFunc (h : Matched f) (hblock : f.block? b = some block)
    (p : Pairing pool f block i) : Matched (p.pairedFunc b) := by
  intro block' hmem k dst token type variant args hk
  rcases p.mem_blocks hblock hmem with rfl | hmem
  · have hk' : p.paired[k]? = some (.reuse dst token type variant args) := hk
    rw [p.getElem?_paired] at hk'
    split at hk'
    · next hlast =>
      obtain ⟨-, rfl, -⟩ := Instr.reuse.inj (some.inj hk')
      exact ⟨i, hlast ▸ p.lt_last, p.var, p.getElem?_paired_reset⟩
    · split at hk'
      · cases hk'
      · obtain ⟨j, hj, v, hx⟩ := h block (Array.mem_of_getElem? hblock) k _ _ _ _ _ hk'
        obtain ⟨y, hy, hbecomes⟩ := forall₂_getElem? p.becomes hx
        cases hbecomes
        exact ⟨j, hj, v, hy⟩
  · exact h block' hmem k _ _ _ _ _ hk

/-- Where the pairing of a function stands: what holds of the releases of some
blocks, and of those of the next up to a place. -/
structure Passed (pool : Pool) (f : Func) (b i : Nat) (g : Func) : Prop where
  valid : Valid .counted g
  size : g.blocks.size = f.blocks.size
  settled : ∀ c k : Nat, c < b ∨ c = b ∧ k < i → Settled pool g c k
  matched : Matched f → Matched g

/-- A place is passed. -/
theorem Passed.next {b : Nat} (h : Passed pool f b i g) (hi : Settled pool g b i) :
    Passed pool f b (i + 1) g := by
  refine ⟨h.valid, h.size, fun c k hck => ?_, h.matched⟩
  by_cases heq : c = b ∧ k = i
  · rw [heq.1, heq.2]
    exact hi
  · exact h.settled c k (by omega)

/-- A pair is made, and the places before stay settled. -/
theorem Passed.pair {b : Nat} (h : Passed pool f b i g) (hblock : g.block? b = some block)
    (p : Pairing pool g block i) : Passed pool f b (i + 1) (p.pairedFunc b) := by
  have hr := p.replaces h.valid.toWellFormed hblock
  refine ⟨p.valid h.valid hblock, ?_, fun c k hck => ?_,
    fun hf => (h.matched hf).pairedFunc hblock p⟩
  · rw [← h.size]
    simp [Pairing.pairedFunc, Func.newVar, Func.modifyBlock]
  · by_cases heq : c = b ∧ k = i
    · -- the release is a reset now
      obtain ⟨rfl, rfl⟩ := heq
      intro block' v t hblock' hdec
      rw [hr.block?_here] at hblock'
      cases hblock'
      have hreset : p.paired[k]? = some (.dec v) := hdec
      rw [p.getElem?_paired] at hreset
      split at hreset
      · cases hreset
      · rw [if_pos rfl] at hreset
        cases hreset
    · exact (h.settled c k (by omega)).pairedFunc h.valid hblock p

/-- Whether a place comes later in the block of another, or in a block that
this one dominates. -/
def Follows (f : Func) (d s : Site) : Prop :=
  d.block = s.block ∧ d.pos < s.pos ∨ d.block ≠ s.block ∧
    f.IsReached d.block ∧ f.IsReached s.block ∧ ∀ way, f.Way s.block way → d.block ∈ way

/-- The reuses of a function, in order: where they stand and what they are. -/
def reuses (f : Func) : List (BlockId × Instr × Nat) :=
  f.blocks.toList.flatMap fun b => (b.code.zipIdx.filter (isReuse ·.1)).map (b.id, ·)

end RefCount.Reuse
