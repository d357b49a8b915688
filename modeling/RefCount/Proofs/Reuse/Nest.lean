/-
Pairs of resets and reuses. Within a block pairs nest: read from its start, a
reset opens its token, and a reuse closes the token that was opened last
(`opened?`). A token is read by its reuse only (`Paired`), so a pair can be
taken out of a function together with its token.

The pair of the first reset of a block is the one that expansion looks for,
and what stands between nests again (`firstReuse?_of_nested`).
-/
import Mathlib
import RefCount.Proofs.Ir.Check
import RefCount.Reuse.Expand

namespace RefCount.Reuse

open Ir List Option

-- ======== tokens

/-- What an instruction opens and closes, given the tokens that are open, the
last first. -/
def opens? (tokens : List Var) : Instr → Option (List Var)
  | .reset token _ => some (token :: tokens)
  | .reuse _ token _ _ _ => if tokens.head? = some token then some tokens.tail else none
  | _ => some tokens

/-- The tokens that are open behind code. -/
def opened? (tokens : List Var) (code : List Instr) : Option (List Var) := code.foldlM opens? tokens

/-- Whether an instruction is about no token. -/
def isPlain : Instr → Bool
  | .reset _ _ => false
  | .reuse _ _ _ _ _ => false
  | _ => true

/-- What an instruction reads other than a token. -/
def plainUses : Instr → List Var
  | .reuse _ _ _ _ args => args
  | x => x.uses

section Code

variable {code code' : List Instr} {x : Instr} {tokens tokens' opened : List Var} {token v : Var}

theorem opened?_cons : opened? tokens (x :: code) = (opens? tokens x).bind (opened? · code) := rfl

theorem opens?_reuse {dst : Var} {type : TypeId} {variant : Int} {args : List Var} :
    opens? tokens (.reuse dst token type variant args) =
      if tokens.head? = some token then some tokens.tail else none := rfl

theorem opened?_append :
    opened? tokens (code ++ code') = (opened? tokens code).bind (opened? · code') :=
  foldlM_append

theorem opens?_of_isPlain (h : isPlain x = true) : opens? tokens x = some tokens := by
  cases x with
  | reset | reuse => cases h
  | _ => rfl

theorem opened?_of_isPlain (h : ∀ x ∈ code, isPlain x = true) :
    opened? tokens code = some tokens := by
  induction code with
  | nil => rfl
  | cons x code ih =>
    rw [opened?_cons, opens?_of_isPlain (h x mem_cons_self)]
    exact ih fun y hy => h y (mem_cons_of_mem x hy)

/-- Taking plain instructions away changes nothing. -/
theorem opened?_filter {p : Instr → Bool} (hp : ∀ x, isPlain x = false → p x = true) :
    opened? tokens (code.filter p) = opened? tokens code := by
  induction code generalizing tokens with
  | nil => rfl
  | cons x code ih =>
    rw [filter_cons, opened?_cons]
    by_cases hx : p x = true
    · rw [if_pos hx, opened?_cons]
      exact congrArg _ (funext fun _ => ih)
    · have hplain : isPlain x = true := by
        by_contra hno
        exact hx (hp x (Bool.eq_false_iff.2 hno))
      rw [if_neg hx, opens?_of_isPlain hplain]
      exact ih

/-- What is closed was open or has been opened. -/
theorem mem_of_reuse {dst : Var} {type : TypeId} {variant : Int} {args : List Var}
    (h : opened? tokens code = some tokens') (hx : .reuse dst token type variant args ∈ code) :
    token ∈ tokens ∨ ∃ v, .reset token v ∈ code := by
  induction code generalizing tokens with
  | nil => cases hx
  | cons y code ih =>
    rw [opened?_cons] at h
    obtain ⟨between, hbetween, h⟩ := bind_eq_some_iff.1 h
    rcases mem_cons.1 hx with rfl | hx
    · rw [opens?_reuse] at hbetween
      split at hbetween
      · rename_i hhead
        exact .inl (mem_of_mem_head? hhead)
      · cases hbetween
    · rcases ih h hx with hmem | ⟨v, hv⟩
      · cases y with
        | reset t u =>
          cases hbetween
          rcases mem_cons.1 hmem with rfl | hmem
          · exact .inr ⟨u, .head _⟩
          · exact .inl hmem
        | reuse =>
          rw [opens?_reuse] at hbetween
          split at hbetween
          · cases hbetween
            exact .inl (mem_of_mem_tail hmem)
          · cases hbetween
        | _ =>
          cases hbetween
          exact .inl hmem
      · exact .inr ⟨v, mem_cons_of_mem y hv⟩

/-- Code that opens nothing has nothing to close. -/
theorem isPlain_of_no_reset (h : opened? [] code = some tokens)
    (hno : ∀ token v, .reset token v ∉ code) : ∀ x ∈ code, isPlain x = true := by
  intro x hx
  cases x with
  | reset token v => exact absurd hx (hno token v)
  | reuse dst token type variant args =>
    rcases mem_of_reuse h hx with hmem | ⟨v, hv⟩
    · cases hmem
    · exact absurd hv (hno token v)
  | _ => rfl

-- ======== pairs

theorem firstReset?_eq_none (h : firstReset? code = none) : ∀ token v, .reset token v ∉ code := by
  induction code with
  | nil => exact fun token v => not_mem_nil
  | cons x code ih =>
    intro token v hmem
    cases x with
    | reset => cases h
    | _ =>
      rcases mem_cons.1 hmem with he | hmem
      · cases he
      · exact ih (map_eq_none_iff.1 h) token v hmem

/-- Where the first reset stands. -/
theorem firstReset?_eq_some {r : ResetAt} (h : firstReset? code = some r) :
    code = r.before ++ .reset r.token r.var :: r.behind ∧
      ∀ token v, .reset token v ∉ r.before := by
  induction code generalizing r with
  | nil => cases h
  | cons x code ih =>
    cases x with
    | reset token v =>
      cases h
      exact ⟨rfl, fun _ _ => not_mem_nil⟩
    | _ =>
      obtain ⟨r', hr', rfl⟩ := map_eq_some_iff.1 h
      obtain ⟨hcode, hno⟩ := ih hr'
      refine ⟨congrArg _ hcode, fun token v hmem => ?_⟩
      rcases mem_cons.1 hmem with he | hmem
      · cases he
      · exact hno token v hmem

/-- The reuse of a rebuilt value. -/
def Rebuild.reuse (r : Rebuild) (token : Var) : Instr :=
  .reuse r.dst token r.type r.variant r.args

/-- The reuse that closes a token is found, and what stands between closes what
has been opened since. -/
theorem firstReuse?_of_opened (opened : List Var)
    (h : opened? (opened ++ token :: tokens) code = some [])
    (hfree : token ∉ opened) (hno : ∀ v, .reset token v ∉ code) :
    ∃ r, firstReuse? token code = some r ∧
      code = r.before ++ r.rebuild.reuse token :: r.behind ∧
      opened? opened r.before = some [] ∧ opened? tokens r.behind = some [] := by
  induction code generalizing opened with
  | nil =>
    have := some.inj h
    simp at this
  | cons x code ih =>
    have hno' : ∀ v, .reset token v ∉ code := fun v hv => hno v (mem_cons_of_mem x hv)
    rw [opened?_cons] at h
    -- an instruction that is not the reuse itself stands before it
    have hlater : ∀ opened', opens? opened x = some opened' →
        opened? (opened' ++ token :: tokens) code = some [] → token ∉ opened' →
        (∀ r, firstReuse? token code = some r →
          firstReuse? token (x :: code) = some { r with before := x :: r.before }) →
        ∃ r, firstReuse? token (x :: code) = some r ∧
          x :: code = r.before ++ r.rebuild.reuse token :: r.behind ∧
          opened? opened r.before = some [] ∧ opened? tokens r.behind = some [] := by
      intro opened' hx h hfree hfirst
      obtain ⟨r, hr, hcode, hbefore, hbehind⟩ := ih _ h hfree hno'
      refine ⟨_, hfirst r hr, congrArg _ hcode, ?_, hbehind⟩
      rw [opened?_cons, hx]
      exact hbefore
    cases x with
    | reset t u =>
      refine hlater (t :: opened) rfl h ?_ fun r hr => by simp [firstReuse?, hr]
      rw [mem_cons, not_or]
      exact ⟨fun he => hno u (he ▸ (.head _)), hfree⟩
    | reuse dst t type variant args =>
      cases opened with
      | nil =>
        by_cases ht : t = token
        · subst ht
          refine ⟨⟨[], ⟨dst, type, variant, args⟩, code⟩, ?_, rfl, rfl, ?_⟩
          · rw [firstReuse?, if_pos rfl]
          · simpa [opens?] using h
        · simp [opens?, Ne.symm ht] at h
      | cons o opened =>
        have ho : o = t := by
          by_contra hne
          simp [opens?, hne] at h
        subst ho
        rw [mem_cons, not_or] at hfree
        refine hlater opened (by simp [opens?]) (by simpa [opens?] using h) hfree.2
          fun r hr => ?_
        rw [firstReuse?, if_neg (Ne.symm hfree.1), hr]
        rfl
    | _ => exact hlater opened rfl h hfree fun r hr => by simp [firstReuse?, hr]

end Code

-- ======== functions

/-- Whether an instruction is a part of a pair, or of what a pair becomes: a reset
or a reuse, a construction, or a test whether a value is shared. -/
def isKey : Instr → Bool
  | .reset _ _ => true
  | .reuse _ _ _ _ _ => true
  | .construct _ _ _ _ => true
  | .isShared _ _ => true
  | _ => false

/-- Whether an instruction builds a value. -/
def isConstruct : Instr → Bool
  | .construct _ _ _ _ => true
  | _ => false

/-- Whether an instruction tests if a value is shared. -/
def isTest : Instr → Bool
  | .isShared _ _ => true
  | _ => false

/-- Those instructions of a block. -/
def keysOf (b : Block) : List Instr := b.code.filter isKey

/-- Those instructions of a function. -/
def keys (f : Func) : List Instr := f.blocks.toList.flatMap keysOf

/-- The number of resets of a function. -/
def resetCount (f : Func) : Nat := (f.instrs.filter isReset).length

theorem isPlain_of_not_isKey {x : Instr} (h : isKey x = false) : isPlain x = true := by
  cases x with
  | reset | reuse => cases h
  | _ => rfl

theorem keys_eq (f : Func) : keys f = f.instrs.filter isKey := by
  rw [Func.instrs, filter_flatMap]
  rfl

/-- Keys are counted over all instructions. -/
theorem countP_keys {p : Instr → Bool} (hp : ∀ x, p x = true → isKey x = true) (f : Func) :
    (keys f).countP p = (f.instrs.filter p).length := by
  rw [keys_eq, countP_filter, ← countP_eq_length_filter]
  refine countP_congr fun x _ => ?_
  simp only [Bool.and_eq_true, and_iff_left_iff_imp]
  exact hp x

theorem resetCount_eq_countP (f : Func) : resetCount f = (keys f).countP isReset :=
  (countP_keys (fun x hx => by cases x <;> trivial) f).symm

/-- Whether a variable is the token of a reset. -/
def IsToken (f : Func) (token : Var) : Prop := ∃ b ∈ f.blocks, ∃ v, .reset token v ∈ b.code

/-- What a block reads other than tokens. -/
def plainReads (b : Block) : List Var := b.code.flatMap plainUses ++ b.termUses

/-- Whether resets and reuses are in pairs, and tokens are read by reuses
only. -/
structure Paired (f : Func) : Prop where
  nested : ∀ b ∈ f.blocks, opened? [] b.code = some []
  apart : ∀ token, IsToken f token → ∀ b ∈ f.blocks, token ∉ plainReads b

section Paired

variable {f : Func} {b c : BlockId} {block block' : Block} {x : Instr} {token v : Var}

theorem mem_plainUses_or (hv : v ∈ x.uses) :
    v ∈ plainUses x ∨ ∃ dst type variant args, x = .reuse dst v type variant args := by
  cases x with
  | reuse dst t type variant args =>
    rcases mem_cons.1 hv with rfl | hv
    · exact .inr ⟨dst, type, variant, args, rfl⟩
    · exact .inl hv
  | _ => exact .inl hv

theorem plainUses_subset : plainUses x ⊆ x.uses := by
  cases x with
  | reuse => exact subset_cons_self _ _
  | _ => exact Subset.refl _

theorem plainReads_subset (block : Block) : plainReads block ⊆ block.reads := by
  intro v hv
  rcases mem_append.1 hv with hv | hv
  · obtain ⟨x, hx, hv⟩ := mem_flatMap.1 hv
    exact mem_append_left _ (mem_flatMap.2 ⟨x, hx, plainUses_subset hv⟩)
  · exact mem_append_right _ hv

theorem mem_defs_of_reset (hv : .reset token v ∈ block.code) : token ∈ block.defs :=
  mem_append_right _ (mem_filterMap.2 ⟨_, hv, rfl⟩)

theorem IsToken.mem_defs (h : IsToken f token) : token ∈ f.defs := by
  obtain ⟨block, hblock, v, hv⟩ := h
  obtain ⟨i, hi⟩ := Array.mem_iff_getElem?.1 hblock
  exact Func.mem_defs_of_block hi (mem_defs_of_reset hv)

/-- A token is read in the block of its reset. -/
theorem Paired.reset_of_read (h : Paired f) (hblock : block ∈ f.blocks) (ht : IsToken f token)
    (hread : token ∈ block.reads) : ∃ v, .reset token v ∈ block.code := by
  have hapart := h.apart token ht block hblock
  rw [plainReads, mem_append, not_or] at hapart
  rcases mem_append.1 hread with hread | hread
  · obtain ⟨x, hx, hv⟩ := mem_flatMap.1 hread
    rcases mem_plainUses_or hv with hv | ⟨dst, type, variant, args, rfl⟩
    · exact absurd (mem_flatMap.2 ⟨x, hx, hv⟩) hapart.1
    · exact (mem_of_reuse (h.nested block hblock) hx).resolve_left not_mem_nil
  · exact absurd hread hapart.2

/-- Only its own block reads a token. -/
theorem Paired.not_read_elsewhere (h : Paired f) (hf : WellFormed f)
    (hblock : f.block? b = some block) (hv : .reset token v ∈ block.code) (hne : c ≠ b)
    (hc : f.block? c = some block') : token ∉ block'.reads := by
  intro hread
  obtain ⟨u, hu⟩ := h.reset_of_read (Array.mem_of_getElem? hc)
    ⟨block, Array.mem_of_getElem? hblock, v, hv⟩ hread
  exact Func.defs_disjoint hf.nodup hblock hc (Ne.symm hne) (mem_defs_of_reset hv)
    (mem_defs_of_reset hu)

end Paired

end RefCount.Reuse
