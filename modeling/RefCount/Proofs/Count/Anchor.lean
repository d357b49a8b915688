/-
Counts at the end of a block that leads to itself. A count up at the end of
such a block must not be cancelled with a count down at its start. It never is:
behind the count stands a use that is no count, or some block that comes next
uses the variable before it releases it (`Anchored`). This is so when counts are
inserted, since a variable is counted up only if it is needed later; and it
stays so, since later steps take away counts only and turn releases into
releases.
-/
import Mathlib
import RefCount.Count.Eliminate
import RefCount.Proofs.Ir.Supply

namespace RefCount.Count

open Ir List

-- ======== code

section Code

variable {v : Var} {x y : Instr} {code code' : List Instr}

/-- Whether an instruction uses a variable, other than to count it. -/
def Holds (v : Var) (x : Instr) : Prop :=
  v ∈ x.uses ∧ x.isCount = false ∧ ∀ token, x ≠ .reset token v

/-- Whether an instruction releases a variable. -/
def Frees (v : Var) (x : Instr) : Prop := x = .dec v ∨ ∃ token, x = .reset token v

/-- Whether code uses a variable before it releases it, if it does. -/
def Covered (v : Var) : List Instr → Prop
  | [] => True
  | x :: rest => Holds v x ∨ ¬Frees v x ∧ Covered v rest

theorem not_frees_of_not_mem (h : v ∉ x.uses) : ¬Frees v x := by
  rintro (rfl | ⟨token, rfl⟩)
  · exact h (.head _)
  · exact h (.head _)

/-- Code that does not release a variable. -/
theorem covered_of_not_frees (h : ∀ x ∈ code, ¬Frees v x) : Covered v code := by
  induction code with
  | nil => trivial
  | cons x code ih =>
    exact .inr ⟨h x (.head _), ih fun y hy => h y (mem_cons_of_mem x hy)⟩

theorem Covered.append (h : Covered v code) (h' : Covered v code') :
    Covered v (code ++ code') := by
  induction code with
  | nil => exact h'
  | cons x code ih => exact h.imp_right (And.imp_right ih)

theorem Covered.left (h : Covered v (code ++ code')) : Covered v code := by
  induction code with
  | nil => trivial
  | cons x code ih => exact h.imp_right (And.imp_right ih)

/-- Without an instruction that does not use it otherwise. -/
theorem Covered.erase (h : Covered v (code ++ x :: code')) (hx : ¬Holds v x) :
    Covered v (code ++ code') := by
  induction code with
  | nil => exact (h.resolve_left hx).2
  | cons y code ih => exact h.imp_right (And.imp_right ih)

/-- With instructions replaced by ones that use more and release less. -/
theorem Covered.replace (h : Covered v code)
    (hcode : List.Forall₂ (fun x y => (Holds v x → Holds v y) ∧ (Frees v y → Frees v x))
      code code') : Covered v code' := by
  induction hcode with
  | nil => trivial
  | cons hx _ ih => exact h.imp hx.1 fun h => ⟨fun hf => h.1 (hx.2 hf), ih h.2⟩

/-- No count down comes first. -/
theorem leadingDec?_of_covered (h : Covered v code) : leadingDec? v code = none := by
  induction code with
  | nil => rfl
  | cons x code ih =>
    unfold leadingDec?
    have hdec : isDec v x = true → x = .dec v := by
      intro hd
      cases x with
      | dec w => rw [of_decide_eq_true hd]
      | _ => cases hd
    rcases h with ⟨hv, hcount, -⟩ | ⟨hfree, h⟩
    · have hblocks : blocks x v = true := by
        rw [blocks, Instr.usesVar, Bool.or_eq_true]
        exact .inl (contains_iff_mem.2 hv)
      have hno : ¬isDec v x = true := by
        intro hd
        rw [hdec hd] at hcount
        cases hcount
      rw [if_neg hno, if_pos hblocks]
    · rw [if_neg fun hd => hfree (.inl (hdec hd)), ih h]
      split
      · rfl
      · rfl

variable {Q Q' : Var → Prop}

/-- Whether what code counts up is used behind, or is as asked. -/
def Secures (Q : Var → Prop) : List Instr → Prop
  | [] => True
  | x :: rest => (∀ v, x = .inc v → (∃ y ∈ rest, Holds v y) ∨ Q v) ∧ Secures Q rest

theorem Secures.append (h : Secures Q code')
    (hcode : ∀ v, .inc v ∈ code → (∃ y ∈ code', Holds v y) ∨ Q v) : Secures Q (code ++ code') := by
  induction code with
  | nil => exact h
  | cons x code ih =>
    refine ⟨?_, ih fun v hv => hcode v (mem_cons_of_mem x hv)⟩
    rintro v rfl
    refine (hcode v (.head _)).imp_left ?_
    rintro ⟨y, hy, hv⟩
    exact ⟨y, mem_append_right _ hy, hv⟩

/-- With instructions replaced by ones that use no less of what they count
up. -/
theorem Secures.replace {K : Var → Prop} (h : Secures Q code)
    (hcode : List.Forall₂ (fun x y => (∀ v, K v → Holds v x → Holds v y) ∧
      ∀ v, y = .inc v → x = .inc v ∧ K v) code code') : Secures Q code' := by
  induction hcode with
  | nil => trivial
  | @cons x y code code' hx hcode ih =>
    refine ⟨fun v hy => (h.1 v (hx.2 v hy).1).imp_left ?_, ih h.2⟩
    have hv := (hx.2 v hy).2
    rintro ⟨z, hz, hholds⟩
    clear h ih hx hy
    induction hcode with
    | nil => cases hz
    | cons hx _ ih =>
      rcases mem_cons.1 hz with rfl | hz
      · exact ⟨_, .head _, hx.1 v hv hholds⟩
      · obtain ⟨z', hz', hholds'⟩ := ih hz
        exact ⟨z', .tail _ hz', hholds'⟩

theorem Secures.mono (h : Secures Q code) (hQ : ∀ v, .inc v ∈ code → Q v → Q' v) :
    Secures Q' code := by
  induction code with
  | nil => trivial
  | cons x code ih =>
    refine ⟨fun v hv => (h.1 v hv).imp_right (hQ v (hv ▸ (.head _))), ?_⟩
    exact ih h.2 fun v hv => hQ v (mem_cons_of_mem x hv)

theorem Secures.at {i : Nat} (h : Secures Q code) (hi : code[i]? = some (.inc v)) :
    (∃ y ∈ code.drop (i + 1), Holds v y) ∨ Q v := by
  induction code generalizing i with
  | nil => cases hi
  | cons x code ih =>
    cases i with
    | zero => exact h.1 v (Option.some.inj hi)
    | succ i => exact ih h.2 hi

end Code

-- ======== blocks

/-- Whether a block ends in a use of a variable, or some block that comes next
uses it before it releases it. -/
def UsedAfter (f : Func) (block : Block) (v : Var) : Prop :=
  v ∈ block.termUses ∨
    ∃ t ∈ block.successors, ∃ target, f.block? t = some target ∧ Covered v target.code

/-- Whether all that blocks count up that lead to themselves is used later. -/
def Anchored (f : Func) : Prop :=
  ∀ b block, f.block? b = some block → b ∈ block.successors →
    Secures (UsedAfter f block) block.code

end RefCount.Count
