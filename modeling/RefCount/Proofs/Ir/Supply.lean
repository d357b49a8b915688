/-
Variables that have their values wherever they are used. Some ways from the
entry to a block may not define a variable (`Misses`); a variable is supplied
to a block if there is no such way. Code is supported by the variables that
have their values at its start if every use is of one of these, or of one that
stands defined before (`Supports`).

What is supplied is the most that can be claimed: to show that all uses are
supported it is enough to name, for some blocks that hold the entry and are not
left by edges, variables that each edge hands on (`Func.supported_of_claims`).
-/
import Mathlib
import RefCount.Ir.Operands
import RefCount.Proofs.Ir.Order

namespace RefCount.Ir

open List Array

-- ======== definitions

/-- The variables that a block defines, in order. -/
def Block.defs (b : Block) : List Var := b.params ++ b.code.filterMap Instr.def?

/-- The variables that a function defines, in order. -/
def Func.defs (f : Func) : List Var :=
  f.params.map (·.var) ++ f.blocks.toList.flatMap Block.defs

/-- The variables that a block reads. -/
def Block.reads (b : Block) : List Var := b.code.flatMap Instr.uses ++ b.termUses

/-- A block leads to the targets of its terminator. -/
theorem Block.mem_successors {b : Block} {term : Term} {t : BlockId} (hterm : b.term = some term)
    (ht : some t ∈ term.targets) : t ∈ b.successors := by
  rw [Block.successors, hterm]
  simpa [Term.successors] using ht

theorem Block.eq_of_mem_jump {b : Block} {t t' : BlockId} {args : List Var}
    (hterm : b.term = some (.jump (some t) args)) (ht : t' ∈ b.successors) : t' = t := by
  rw [Block.successors, hterm] at ht
  simpa [Term.successors, Term.targets] using ht

-- ======== code

section Code

variable {P Q : Var → Prop} {code code' : List Instr} {last : List Var} {x : Instr} {v : Var}

/-- Whether every use in code, and every one after it, is of a variable that
has its value at the start or is defined before. -/
def Supports (P : Var → Prop) : List Instr → List Var → Prop
  | [], last => ∀ v ∈ last, P v
  | x :: rest, last => (∀ v ∈ x.uses, P v) ∧ Supports (fun v => P v ∨ x.def? = some v) rest last

theorem Supports.mono (h : Supports P code last) (hPQ : ∀ v, P v → Q v) : Supports Q code last := by
  induction code generalizing P Q with
  | nil => exact fun v hv => hPQ v (h v hv)
  | cons x code ih =>
    exact ⟨fun v hv => hPQ v (h.1 v hv), ih h.2 fun v => Or.imp (hPQ v) id⟩

/-- Only what is read matters. -/
theorem Supports.mono_on (h : Supports P code last)
    (hPQ : ∀ v, v ∈ code.flatMap Instr.uses ++ last → P v → Q v) : Supports Q code last := by
  induction code generalizing P Q with
  | nil => exact fun v hv => hPQ v (by simpa using hv) (h v hv)
  | cons x code ih =>
    refine ⟨fun v hv => hPQ v ?_ (h.1 v hv), ih h.2 fun v hv => Or.imp (hPQ v ?_) id⟩
    · simp [hv]
    · rw [List.flatMap_cons, List.append_assoc]
      exact mem_append_right _ hv

theorem supports_of_forall (h : ∀ v ∈ code.flatMap Instr.uses ++ last, P v) :
    Supports P code last := by
  induction code generalizing P with
  | nil => exact h
  | cons x code ih =>
    refine ⟨fun v hv => h v (by simp [hv]), ih fun v hv => .inl (h v ?_)⟩
    rw [List.flatMap_cons, List.append_assoc]
    exact mem_append_right _ hv

/-- Code supports what follows it with what it defines. -/
theorem supports_append : Supports P (code ++ code') last ↔ Supports P code [] ∧
      Supports (fun v => P v ∨ v ∈ code.filterMap Instr.def?) code' last := by
  induction code generalizing P with
  | nil => simp [Supports]
  | cons x code ih =>
    rw [cons_append, Supports, Supports, ih, and_assoc]
    refine and_congr_right fun _ => and_congr_right fun _ => ?_
    have hsame : ∀ v, ((P v ∨ x.def? = some v) ∨ v ∈ code.filterMap Instr.def?) ↔
        P v ∨ v ∈ (x :: code).filterMap Instr.def? := by
      intro v
      rw [or_assoc, List.mem_filterMap, List.mem_filterMap]
      simp
    exact ⟨fun h => h.mono fun v => (hsame v).1, fun h => h.mono fun v => (hsame v).2⟩

/-- What follows code needs what it does not define to be there before. -/
theorem supports_iff_last : Supports P code last ↔
    Supports P code [] ∧ ∀ v ∈ last, P v ∨ v ∈ code.filterMap Instr.def? := by
  rw [← append_nil code, supports_append, append_nil]
  rfl

/-- Everything that is read is there at the start or defined. -/
theorem Supports.mem_of_read (h : Supports P code last)
    (hv : v ∈ code.flatMap Instr.uses ++ last) : P v ∨ v ∈ code.filterMap Instr.def? := by
  induction code generalizing P with
  | nil => exact .inl (h v hv)
  | cons x code ih =>
    rw [List.flatMap_cons, List.append_assoc, List.mem_append] at hv
    rcases hv with hv | hv
    · exact .inl (h.1 v hv)
    · rw [List.mem_filterMap]
      rcases ih h.2 hv with (hv | hv) | hv
      · exact .inl hv
      · exact .inr ⟨x, .head _, hv⟩
      · obtain ⟨y, hy, hd⟩ := mem_filterMap.1 hv
        exact .inr ⟨y, mem_cons_of_mem x hy, hd⟩

/-- Uses by their positions. -/
theorem supports_iff : Supports P code last ↔ (∀ (j : Nat) x, code[j]? = some x → ∀ v ∈ x.uses,
      P v ∨ ∃ i < j, ∃ y, code[i]? = some y ∧ y.def? = some v) ∧
    ∀ v ∈ last, P v ∨ v ∈ code.filterMap Instr.def? := by
  rw [supports_iff_last, and_congr_left_iff]
  intro hlast
  clear hlast
  induction code generalizing P with
  | nil => simp [Supports]
  | cons x code ih =>
    rw [Supports, ih]
    constructor
    · rintro ⟨hx, hcode⟩ j y hy v hv
      cases j with
      | zero =>
        cases hy
        exact .inl (hx v hv)
      | succ j =>
        rcases hcode j y hy v hv with (h | h) | ⟨i, hi, z, hz, hd⟩
        · exact .inl h
        · exact .inr ⟨0, Nat.succ_pos j, x, rfl, h⟩
        · exact .inr ⟨i + 1, Nat.succ_lt_succ hi, z, hz, hd⟩
    · intro h
      refine ⟨fun v hv => ?_, fun j y hy v hv => ?_⟩
      · rcases h 0 x rfl v hv with h | ⟨i, hi, -⟩
        · exact h
        · exact absurd hi (Nat.not_lt_zero i)
      · rcases h (j + 1) y hy v hv with h | ⟨i, hi, z, hz, hd⟩
        · exact .inl (.inl h)
        · cases i with
          | zero =>
            cases hz
            exact .inl (.inr hd)
          | succ i => exact .inr ⟨i, Nat.lt_of_succ_lt_succ hi, z, hz, hd⟩

-- ----------------------------------------------------------- counts in code

variable {cs : List Instr}

/-- Whether code only counts some variables. -/
def CountsOf (P : Var → Prop) (code : List Instr) : Prop :=
  ∀ y ∈ code, ∃ v, P v ∧ (y = .inc v ∨ y = .dec v)

theorem CountsOf.filterMap_def (h : CountsOf P cs) : cs.filterMap Instr.def? = [] := by
  rw [filterMap_eq_nil_iff]
  intro y hy
  obtain ⟨v, -, rfl | rfl⟩ := h y hy
  · rfl
  · rfl

theorem CountsOf.supports (h : CountsOf P cs) : Supports P cs [] := by
  induction cs generalizing P with
  | nil => exact fun v hv => nomatch hv
  | cons y cs ih =>
    refine ⟨fun v hv => ?_, ih fun z hz => ?_⟩
    · obtain ⟨u, hu, rfl | rfl⟩ := h y (.head _)
      · rwa [mem_singleton.1 hv]
      · rwa [mem_singleton.1 hv]
    · obtain ⟨u, hu, hz⟩ := h z (mem_cons_of_mem y hz)
      exact ⟨u, .inl hu, hz⟩

/-- Counts of what is there can stand anywhere. -/
theorem supports_counts (h : CountsOf P cs) (hcode : Supports P code last) :
    Supports P (cs ++ code) last :=
  supports_append.2 ⟨h.supports, hcode.mono fun _ => .inl⟩

end Code

-- ======== blocks

namespace Func

variable {f : Func} {b t : BlockId} {block : Block} {v : Var}

theorem block?_modifyBlock (f : Func) (b i : BlockId) (k : Block → Block) :
    (f.modifyBlock b k).block? i = if i = b then (f.block? b).map k else f.block? i := by
  unfold modifyBlock block?
  dsimp only
  rw [Array.getElem?_modify]
  by_cases hi : i = b
  · rw [if_pos hi, if_pos hi.symm, hi]
  · rw [if_neg (Ne.symm hi), if_neg hi]

theorem successors_eq (hb : f.block? b = some block) : f.successors b = block.successors := by
  rw [successors, hb]
  rfl

/-- Whether some way from the entry to the start of a block does not define a
variable. -/
inductive Misses (f : Func) (v : Var) : BlockId → Prop
  | entry (h : v ∉ f.params.map (·.var)) : Misses f v f.entry
  | edge {b t : BlockId} {block : Block} (h : Misses f v b) (hb : f.block? b = some block)
      (hv : v ∉ block.defs) (ht : t ∈ block.successors) : Misses f v t

theorem Misses.reachable (h : f.Misses v b) : f.Reachable b := by
  induction h with
  | entry => exact .entry
  | edge _ hb _ ht ih => exact .edge ih (successors_eq hb ▸ ht)

/-- Whether the uses of a block are supported by variables. -/
def Supported (block : Block) (P : Var → Prop) : Prop :=
  Supports (fun v => P v ∨ v ∈ block.params) block.code block.termUses

/-- Whether the uses of every block that can be reached are supported by what
is supplied to it. -/
def AllSupported (f : Func) : Prop :=
  ∀ b block, f.Reachable b → f.block? b = some block → Supported block fun v => ¬f.Misses v b

/-- Claims of what is supplied: the blocks that they are about hold the entry
and are not left by edges, and what is claimed of a block is there at the end
of every block that leads to it. -/
structure Claims (f : Func) (R : BlockId → Prop) (A : BlockId → Var → Prop) : Prop where
  entry : R f.entry
  closed : ∀ b block t, R b → f.block? b = some block → t ∈ block.successors → R t
  start : ∀ v, A f.entry v → v ∈ f.params.map (·.var)
  edge : ∀ b block t v, R b → f.block? b = some block → t ∈ block.successors → A t v →
    A b v ∨ v ∈ block.defs

variable {A : BlockId → Var → Prop} {R : BlockId → Prop}

theorem Claims.not_misses (h : f.Claims R A) (hb : A b v) : ¬f.Misses v b := by
  have hmiss : ∀ {b}, f.Misses v b → R b ∧ ¬A b v := by
    intro b hm
    induction hm with
    | entry hv => exact ⟨h.entry, fun hA => hv (h.start v hA)⟩
    | edge _ hb hv ht ih =>
      refine ⟨h.closed _ _ _ ih.1 hb ht, fun hA => ?_⟩
      exact (h.edge _ _ _ v ih.1 hb ht hA).elim ih.2 hv
  exact fun hm => (hmiss hm).2 hb

theorem Claims.reachable (h : f.Claims R A) (hb : f.Reachable b) : R b := by
  induction hb with
  | entry => exact h.entry
  | @edge b t _ ht ih =>
    obtain ⟨block, hblock, ht⟩ := exists_of_successor ht
    exact h.closed b block t ih hblock ht

theorem supported_of_claims (h : f.Claims R A)
    (hall : ∀ b block, R b → f.block? b = some block → Supported block (A b)) : f.AllSupported := by
  intro b block hb hblock
  exact (hall b block (h.reachable hb) hblock).mono fun v => Or.imp h.not_misses id

theorem claims_supplied (f : Func) : f.Claims f.Reachable fun b v => ¬f.Misses v b where
  entry := .entry
  closed b block t hb hblock ht := .edge hb (successors_eq hblock ▸ ht)
  start v hv := by
    by_contra hno
    exact hv (.entry hno)
  edge b block t v _ hblock ht hv := by
    by_contra hno
    rw [not_or, not_not] at hno
    exact hv (.edge hno.1 hblock hno.2 ht)

/-- The parameters of the function are supplied to its entry. -/
theorem not_misses_entry (hfree : ∀ b, f.entry ∉ f.successors b)
    (hv : v ∈ f.params.map (·.var)) : ¬f.Misses v f.entry := by
  intro h
  generalize hb : f.entry = b at h
  cases h with
  | entry h => exact h hv
  | @edge c _ block _ hblock _ ht => exact hfree c (successors_eq hblock ▸ hb ▸ ht)

-- ======== single definitions

/-- Changes that leave a list of values of every element alone. -/
theorem flatMap_modify {α β : Type} {h : α → List β} {k : α → α} (hk : ∀ a, h (k a) = h a)
    (xs : Array α) (i : Nat) : (xs.modify i k).toList.flatMap h = xs.toList.flatMap h := by
  have hlist : ∀ (l : List α) (i : Nat), (l.modify i k).flatMap h = l.flatMap h := by
    intro l
    induction l with
    | nil =>
      intro i
      cases i with
      | zero => rfl
      | succ i => rfl
    | cons a l ih =>
      intro i
      cases i with
      | zero => simp [hk]
      | succ i => simp [ih]
  rw [toList_modify, hlist]

/-- A change of a block that keeps its definitions keeps those of the
function. -/
theorem defs_modifyBlock {k : Block → Block} (hk : ∀ block, (k block).defs = block.defs) :
    (f.modifyBlock b k).defs = f.defs := by
  unfold defs modifyBlock
  dsimp only
  rw [flatMap_modify hk]

/-- The definitions of a block are among those of its function. -/
theorem mem_defs_of_block (hb : f.block? b = some block) (hv : v ∈ block.defs) : v ∈ f.defs :=
  mem_append_right _ (mem_flatMap.2 ⟨block, mem_toList_iff.2 (mem_of_getElem? hb), hv⟩)

section

variable (hnd : f.defs.Nodup) (hb : f.block? b = some block)
include hnd hb

theorem nodup_block : block.defs.Nodup :=
  (nodup_flatMap.1 (nodup_append.1 hnd).2.1).1 block (mem_toList_iff.2 (mem_of_getElem? hb))

/-- Two blocks do not define one variable. -/
theorem defs_disjoint {c : BlockId} {block' : Block} (hc : f.block? c = some block') (hne : b ≠ c)
    (hv : v ∈ block.defs) : v ∉ block'.defs := by
  have hpair := (nodup_flatMap.1 (nodup_append.1 hnd).2.1).2
  rw [List.pairwise_iff_getElem] at hpair
  rw [block?, ← Array.getElem?_toList, List.getElem?_eq_some_iff] at hb hc
  obtain ⟨hb, rfl⟩ := hb
  obtain ⟨hc, rfl⟩ := hc
  intro hv'
  rcases lt_or_gt_of_ne hne with hlt | hlt
  · exact hpair b c hb hc hlt hv hv'
  · exact hpair c b hc hb hlt hv' hv

theorem not_mem_params_of_block
    (hv : v ∈ block.defs) : v ∉ f.params.map (·.var) := by
  intro hp
  refine (nodup_append.1 hnd).2.2 v hp v ?_ rfl
  exact mem_flatMap.2 ⟨block, mem_toList_iff.2 (mem_of_getElem? hb), hv⟩

end

/-- A variable with one definition is not supplied to the block that defines
it. -/
theorem misses_of_mem_defs (hnd : f.defs.Nodup) (hb : f.Reachable b)
    (hblock : f.block? b = some block) (hv : v ∈ block.defs) : f.Misses v b := by
  -- on a way there the variable is missed, up to the block itself
  have hway : ∀ {c}, f.Reachable c → f.Misses v c ∨ f.Misses v b := by
    intro c hc
    induction hc with
    | entry => exact .inl (.entry (not_mem_params_of_block hnd hblock hv))
    | @edge c t _ ht ih =>
      rcases ih with hm | hm
      · obtain ⟨cblock, hcblock, ht⟩ := exists_of_successor ht
        by_cases hcb : c = b
        · exact .inr (hcb ▸ hm)
        · exact .inl (.edge hm hcblock (defs_disjoint hnd hblock hcblock (Ne.symm hcb) hv) ht)
      · exact .inr hm
  exact (hway hb).elim id id

end Func

end RefCount.Ir
