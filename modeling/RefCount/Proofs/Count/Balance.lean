/-
Cancelling counts along paths. What counts is how often a variable has been
counted up less how often it has been counted down on the way to an event: an
instruction that is no count, or the end of a block.

# The argument

Two functions with the same events on every path are compared event by event
(`Steady`): where a call or a uniqueness test can see any count, and where the
path ends, counts are the same; where the variable is used, no reference is
missing. This is reflexive and transitive, so it is enough to follow one
cancellation.

- Within a block, a count up is taken away with a later count down
  (`withoutDec?_steady`): in between there is one reference less, and nothing
  that uses the variable or sees its count. The other way round
  (`withoutInc?_steady`) there is one more.
- Across edges, a path that leaves the block goes on to one of its successors,
  and a path that comes to one of these has just left the block; so there is
  one reference less exactly between the two counts (`events_across`).

Every cancellation makes the function shorter, so that the bound on rounds is
never reached.
-/
import Mathlib
import RefCount.Proofs.Count.Eliminate

namespace RefCount.Count

open Ir List Option Array

-- ======== events

/-- By how much an instruction changes the count of a variable. -/
def change (v : Var) : Instr → Int
  | .inc w => if w = v then 1 else 0
  | .dec w => if w = v then -1 else 0
  | _ => 0

/-- Counts up less counts down of a variable. -/
def net (v : Var) (code : List Instr) : Int := (code.map (change v)).sum

/-- What happens on a path but for counts: an instruction, or the end of a
block. -/
inductive Event where
  | instr (x : Instr)
  | leave (term : Option Term)

namespace Event

/-- The variables that an event uses. -/
def uses : Event → List Var
  | instr x => x.uses
  | leave term => (term.map Term.uses).getD []

/-- Whether counts are seen, or a path ends: at calls, at uniqueness tests, and
at the end of a block that leads nowhere. -/
def isExact : Event → Bool
  | instr (.call _ _ _ _) => true
  | instr (.callClosure _ _ _) => true
  | instr (.isShared _ _) => true
  | instr _ => false
  | leave term => ((term.map Term.successors).getD []).isEmpty

end Event

/-- The events of code, each with the count of a variable before it. -/
def codeEvents (v : Var) : Int → List Instr → List (Event × Int)
  | _, [] => []
  | n, x :: code =>
    if x.isCount then codeEvents v (n + change v x) code
    else (.instr x, n) :: codeEvents v n code

/-- The terminator of a block. -/
def termOf (f : Func) (b : BlockId) : Option Term := (f.block? b).bind (·.term)

/-- The events of blocks that follow each other, each with the count of a
variable before it. -/
def events (f : Func) (v : Var) : Int → List BlockId → List (Event × Int)
  | _, [] => []
  | n, b :: path =>
    codeEvents v n (codeOf f b) ++
      (.leave (termOf f b), n + net v (codeOf f b)) ::
        events f v (n + net v (codeOf f b)) path

/-- Blocks that follow each other, from the entry on. -/
structure IsPath (f : Func) (path : List BlockId) : Prop where
  entry : path.head? = some f.entry
  chain : path.IsChain fun b s => s ∈ f.successors b

/-- An event with its count before and after cancelling: the count is the same
where it matters, and not smaller where the variable is used. -/
structure Steady (v : Var) (e e' : Event × Int) : Prop where
  event : e'.1 = e.1
  exact : e.1.isExact = true → e'.2 = e.2
  used : v ∈ e.1.uses → e.2 ≤ e'.2

/-- Counts are steady on every path. -/
def Balanced (f g : Func) : Prop :=
  ∀ path, IsPath f path → ∀ v,
    List.Forall₂ (Steady v) (events f v 0 path) (events g v 0 path)

-- ======== code

variable {v w : Var} {x : Instr} {n m : Int} {code code' code'' : List Instr}
  {es es' es'' : List (Event × Int)}

theorem Steady.refl (e : Event × Int) : Steady v e e := ⟨rfl, fun _ => rfl, fun _ => le_rfl⟩

theorem Steady.trans {e e' e'' : Event × Int} (h : Steady v e e') (h' : Steady v e' e'') :
    Steady v e e'' where
  event := h'.event.trans h.event
  exact hexact := (h'.exact (h.event ▸ hexact)).trans (h.exact hexact)
  used hused := (h.used hused).trans (h'.used (h.event ▸ hused))

theorem steady_refl (es : List (Event × Int)) : Forall₂ (Steady v) es es :=
  forall₂_same.2 fun e _ => .refl e

theorem steady_trans (h : Forall₂ (Steady v) es es')
    (h' : Forall₂ (Steady v) es' es'') : Forall₂ (Steady v) es es'' := by
  induction h generalizing es'' with
  | nil => exact h'
  | cons he _ ih =>
    cases h' with
    | cons he' h' => exact .cons (he.trans he') (ih h')

theorem change_of_not_count (hx : x.isCount = false) : change v x = 0 := by
  cases x with
  | inc | dec => cases hx
  | _ => rfl

theorem change_dec : change v (.dec w) = -change v (.inc w) := by
  simp only [change]
  split <;> rfl

/-- Counts of another variable do not matter. -/
theorem change_inc_of_ne (h : v ≠ w) : change v (.inc w) = 0 := if_neg h.symm

theorem net_cons : net v (x :: code) = change v x + net v code := by
  simp [net]

theorem add_net_cons : n + net v (x :: code) = n + change v x + net v code := by
  rw [net_cons, add_assoc]

theorem codeEvents_count (hx : x.isCount = true) :
    codeEvents v n (x :: code) = codeEvents v (n + change v x) code := by
  rw [codeEvents, if_pos hx]

theorem codeEvents_cons (hx : x.isCount = false) :
    codeEvents v n (x :: code) = (.instr x, n) :: codeEvents v n code := by
  rw [codeEvents, hx]
  rfl

/-- Code before and after cancelling, with the counts of a variable before: its
events are steady, and the counts afterwards are as given. -/
structure CodeSteady (v : Var) (n m : Int) (code code' : List Instr) (n' m' : Int) : Prop where
  events : List.Forall₂ (Steady v) (codeEvents v n code) (codeEvents v m code')
  before : n + net v code = n'
  after : m + net v code' = m'

namespace CodeSteady

variable {n' m' k k' : Int}

theorem refl : CodeSteady v n n code code (n + net v code) (n + net v code) :=
  ⟨steady_refl _, rfl, rfl⟩

theorem trans (h : CodeSteady v n m code code' n' m') (h' : CodeSteady v m k code' code'' m' k') :
    CodeSteady v n k code code'' n' k' :=
  ⟨steady_trans h.events h'.events, h.before, h'.after⟩

/-- An instruction before both. -/
theorem cons (h : CodeSteady v (n + change v x) (m + change v x) code code' n' m')
    (hx : x.isCount = false → Steady v (.instr x, n) (.instr x, m)) :
    CodeSteady v n m (x :: code) (x :: code') n' m' := by
  refine ⟨?_, add_net_cons.trans h.before, add_net_cons.trans h.after⟩
  cases hcount : x.isCount with
  | true =>
    rw [codeEvents_count hcount, codeEvents_count hcount]
    exact h.events
  | false =>
    have hevents := h.events
    rw [change_of_not_count hcount, add_zero, add_zero] at hevents
    rw [codeEvents_cons hcount, codeEvents_cons hcount]
    exact .cons (hx hcount) hevents

/-- A count that is taken away. -/
theorem drop (h : CodeSteady v (n + change v x) m code code' n' m') (hx : x.isCount = true) :
    CodeSteady v n m (x :: code) code' n' m' := by
  refine ⟨?_, add_net_cons.trans h.before, h.after⟩
  rw [codeEvents_count hx]
  exact h.events

end CodeSteady

/-- An instruction that does not block a variable does not tell whether it has
been counted. -/
theorem steady_of_not_blocks (hx : blocks x w = false) (h : v ≠ w → n = m) :
    Steady v (.instr x, n) (.instr x, m) := by
  obtain ⟨huses, hobserves⟩ := Bool.or_eq_false_iff.1 hx
  refine ⟨rfl, fun hexact => ?_, fun hused => ?_⟩
  · cases x with
    | call | callClosure | isShared => cases hobserves
    | _ => cases hexact
  · refine (h ?_).le
    rintro rfl
    have hcontains : x.uses.contains v = true := contains_iff_mem.2 hused
    rw [Instr.usesVar, hcontains] at huses
    cases huses

/-- An instruction that neither changes nor sees counts. -/
theorem steady_of_isCountFree (hx : isCountFree x = true) (h : n ≤ m) :
    Steady v (.instr x, n) (.instr x, m) := by
  refine ⟨rfl, fun hexact => ?_, fun _ => h⟩
  cases x with
  | call | callClosure | isShared => cases hx
  | _ => cases hexact

/-- Up to the count down that is taken away there is one reference less. -/
theorem withoutDec?_steady (h : withoutDec? w code = some code') (hn : n = m + change v (.inc w)) :
    CodeSteady v n m code code' (n + net v code) (n + net v code) := by
  induction code generalizing n m code' with
  | nil => cases h
  | cons x code ih =>
    rw [withoutDec?] at h
    split at h
    · next hx =>
      cases h
      obtain rfl := eq_dec_of_isDec hx
      have hm : n + change v (.dec w) = m := by rw [hn, change_dec]; ring
      rw [add_net_cons, hm]
      refine .drop ?_ rfl
      rw [hm]
      exact .refl
    · split at h
      · cases h
      · next hx =>
        obtain ⟨rest, hrest, rfl⟩ := map_eq_some_iff.1 h
        rw [add_net_cons]
        refine .cons (ih hrest (by rw [hn]; ring)) fun _ => ?_
        refine steady_of_not_blocks (Bool.eq_false_iff.2 hx) fun hne => ?_
        rw [hn, change_inc_of_ne hne, add_zero]

/-- Up to the count up that is taken away there is one reference more. -/
theorem withoutInc?_steady (h : withoutInc? w code = some code') (hn : n + change v (.inc w) = m) :
    CodeSteady v n m code code' (n + net v code) (n + net v code) := by
  induction code generalizing n m code' with
  | nil => cases h
  | cons x code ih =>
    rw [withoutInc?] at h
    split at h
    · next hx =>
      cases h
      obtain rfl := eq_inc_of_isInc hx
      rw [add_net_cons, hn]
      refine .drop ?_ rfl
      rw [hn]
      exact .refl
    · split at h
      · next hx =>
        obtain ⟨rest, hrest, rfl⟩ := map_eq_some_iff.1 h
        rw [add_net_cons]
        refine .cons (ih hrest (by rw [← hn]; ring)) fun _ => steady_of_isCountFree hx ?_
        rw [← hn, change]
        split <;> omega
      · cases h

/-- A pair that is cancelled leaves every other event as it was. -/
theorem cancel?_steady (h : cancel? code = some code') :
    CodeSteady v n n code code' (n + net v code) (n + net v code) := by
  induction code generalizing n code' with
  | nil => cases h
  | cons x code ih =>
    rw [cancel?] at h
    rw [add_net_cons]
    split at h
    · next found hfound =>
      cases h
      cases x with
      | inc w => exact .drop (withoutDec?_steady hfound rfl) rfl
      | dec w =>
        refine .drop (withoutInc?_steady hfound ?_) rfl
        rw [change_dec]
        ring
      | _ => cases hfound
    · obtain ⟨rest, hrest, rfl⟩ := map_eq_some_iff.1 h
      exact .cons (ih hrest) fun _ => .refl _

/-- So does cancelling pair after pair. -/
theorem cancelAll_steady (steps : Nat) :
    CodeSteady v n n code (cancelAll steps code).1 (n + net v code) (n + net v code) := by
  induction steps generalizing code with
  | zero => exact .refl
  | succ steps ih =>
    rw [cancelAll]
    split
    · exact .refl
    · next code' hcode' =>
      have hfirst : CodeSteady v n n code code' (n + net v code) (n + net v code) :=
        cancel?_steady hcode'
      refine hfirst.trans ?_
      have hrest := @ih code'
      rwa [hfirst.after] at hrest

/-- Behind a count up that is taken away there is one reference less. -/
theorem eraseIdx_steady {i : Nat} (hi : code[i]? = some (.inc w))
    (hbehind : ∀ x ∈ code.drop (i + 1), blocks x w = false) :
    CodeSteady v n n code (code.eraseIdx i) (n + net v code)
      (n + net v code - change v (.inc w)) := by
  -- what follows the count
  have htail : ∀ {code : List Instr} {n m : Int}, (∀ x ∈ code, blocks x w = false) →
      n = m + change v (.inc w) →
      CodeSteady v n m code code (n + net v code) (n + net v code - change v (.inc w)) := by
    intro code
    induction code with
    | nil =>
      intro n m _ hn
      exact ⟨.nil, rfl, by rw [hn]; ring⟩
    | cons x code ih =>
      intro n m hcode hn
      rw [add_net_cons]
      refine .cons (ih (fun y hy => hcode y (mem_cons_of_mem x hy)) (by rw [hn]; ring))
        fun _ => steady_of_not_blocks (hcode x (.head _)) fun hne => ?_
      rw [hn, change_inc_of_ne hne, add_zero]
  induction code generalizing n i with
  | nil => cases hi
  | cons x code ih =>
    rw [add_net_cons]
    cases i with
    | zero =>
      cases hi
      exact .drop (htail hbehind rfl) rfl
    | succ i => exact .cons (ih hi hbehind) fun _ => .refl _

-- ======== paths

section paths

variable {f g h : Func} {b c : BlockId} {path : List BlockId}

theorem Balanced.refl (f : Func) : Balanced f f := fun _ _ _ => steady_refl _

theorem IsPath.of_thins (hfg : FuncThins f g) (hp : IsPath f path) : IsPath g path where
  entry := hfg.entry ▸ hp.entry
  chain := hp.chain.imp fun b s hs => by rwa [hfg.successors_eq]

theorem Balanced.trans (hfg : FuncThins f g) (hb : Balanced f g) (hb' : Balanced g h) :
    Balanced f h :=
  fun path hp v => steady_trans (hb path hp v) (hb' path (hp.of_thins hfg) v)

theorem termOf_eq (hfg : FuncThins f g) : termOf g b = termOf f b := by
  cases hb : f.block? b with
  | none => rw [termOf, termOf, hb, hfg.none hb]
  | some block =>
    obtain ⟨block', hb', halike⟩ := hfg.forth hb
    rw [termOf, termOf, hb, hb']
    exact halike.term

theorem successors_eq_term : f.successors b = ((termOf f b).map Term.successors).getD [] := by
  rw [Func.successors, termOf]
  cases f.block? b <;> rfl

/-- One block of a path. -/
theorem events_cons {n' m' : Int} (hfg : FuncThins f g)
    (hcode : CodeSteady v n m (codeOf f b) (codeOf g b) n' m')
    (hterm : Steady v (.leave (termOf f b), n') (.leave (termOf f b), m'))
    (hrest : Forall₂ (Steady v) (events f v n' path) (events g v m' path)) :
    Forall₂ (Steady v) (events f v n (b :: path)) (events g v m (b :: path)) := by
  rw [events, events, hcode.before, hcode.after, termOf_eq hfg]
  exact rel_append hcode.events (.cons hterm hrest)

/-- Counts are steady if they are within every block and the same at its end. -/
theorem balanced_of_blocks (hfg : FuncThins f g)
    (hcode : ∀ b v n, CodeSteady v n n (codeOf f b) (codeOf g b) (n + net v (codeOf f b))
      (n + net v (codeOf f b))) : Balanced f g := by
  have hall (v : Var) (path : List BlockId) :
      ∀ n, Forall₂ (Steady v) (events f v n path) (events g v n path) := by
    induction path with
    | nil => exact fun _ => .nil
    | cons b path ih => exact fun n => events_cons hfg (hcode b v n) (.refl _) (ih _)
  exact fun path _ v => hall v path 0

/-- A count up is taken away at the end of a block, and a count down at the
start of each block that it leads to. -/
structure Across (f g : Func) (b : BlockId) (w : Var) : Prop where
  thins : FuncThins f g
  leads : f.successors b ≠ []
  alone : ∀ s ∈ f.successors b, ∀ c, s ∈ f.successors c → c = b
  apart : b ∉ f.successors b
  unused : w ∉ (Event.leave (termOf f b)).uses
  here : ∀ v n, CodeSteady v n n (codeOf f b) (codeOf g b) (n + net v (codeOf f b))
    (n + net v (codeOf f b) - change v (.inc w))
  next : ∀ s ∈ f.successors b, ∀ v n m, n = m + change v (.inc w) →
    CodeSteady v n m (codeOf f s) (codeOf g s) (n + net v (codeOf f s)) (n + net v (codeOf f s))
  other : ∀ c, c ≠ b → c ∉ f.successors b → codeOf g c = codeOf f c

/-- Where a path has just left the block there is one reference less, and
nowhere else. -/
theorem events_across (ha : Across f g b w) :
    ∀ {path : List BlockId}, (path.IsChain fun b s => s ∈ f.successors b) → ∀ {n m : Int},
      (∀ c, path.head? = some c → n = m + if c ∈ f.successors b then change v (.inc w) else 0) →
      Forall₂ (Steady v) (events f v n path) (events g v m path) := by
  intro path
  induction path with
  | nil => exact fun _ _ _ _ => .nil
  | cons c path ih =>
    intro hchain n m hn
    have hn := hn c rfl
    obtain ⟨hnext, hchain⟩ := isChain_cons.1 hchain
    have hnot {k k' : Int} (hcb : c ≠ b) (hk : k = k') : ∀ s, path.head? = some s →
        k = k' + if s ∈ f.successors b then change v (.inc w) else 0 := by
      intro s hs
      have hsb : s ∉ f.successors b := fun hsb => hcb (ha.alone s hsb c (hnext s hs))
      rw [if_neg hsb, add_zero, hk]
    by_cases hcb : c = b
    · -- the count up is gone: the path goes on to a successor
      subst hcb
      rw [if_neg ha.apart, add_zero] at hn
      subst hn
      refine events_cons ha.thins (ha.here v n) ⟨rfl, fun hexact => ?_, fun hused => ?_⟩
        (ih hchain fun s hs => ?_)
      · refine absurd ?_ ha.leads
        rw [successors_eq_term]
        exact isEmpty_iff.1 hexact
      · have hne : v ≠ w := by
          rintro rfl
          exact ha.unused hused
        rw [change_inc_of_ne hne, sub_zero]
      · rw [if_pos (hnext s hs)]
        ring
    · by_cases hcs : c ∈ f.successors b
      · -- the count down is gone as well
        rw [if_pos hcs] at hn
        exact events_cons ha.thins (ha.next c hcs v n m hn) (.refl _) (ih hchain (hnot hcb rfl))
      · rw [if_neg hcs, add_zero] at hn
        subst hn
        have hsame : CodeSteady v n n (codeOf f c) (codeOf g c) (n + net v (codeOf f c))
            (n + net v (codeOf f c)) := by
          rw [ha.other c hcb hcs]
          exact .refl
        exact events_cons ha.thins hsame (.refl _) (ih hchain (hnot hcb rfl))

/-- Counts that are cancelled over the edges of a block balance. -/
theorem Across.balanced (ha : Across f g b w) (hentry : f.entry ∉ f.successors b) :
    Balanced f g := by
  intro path hp v
  refine events_across ha hp.chain fun c hc => ?_
  rw [hp.entry] at hc
  cases hc
  rw [if_neg hentry, add_zero]

end paths

-- ======== lengths

section lengths

variable {f g : Func} {b : BlockId}

theorem Thins.length_le (h : Thins code code') : code'.length ≤ code.length := by
  induction h with
  | nil => exact le_rfl
  | keep x _ ih => exact Nat.succ_le_succ ih
  | drop _ _ ih => exact Nat.le_succ_of_le ih

/-- Only counts go. -/
theorem Thins.filter_eq (h : Thins code code') :
    code'.filter (!·.isCount) = code.filter (!·.isCount) := by
  induction h with
  | nil => rfl
  | keep x _ ih => rw [filter_cons, filter_cons, ih]
  | drop hx _ ih => rw [filter_cons, hx, ih]; rfl

theorem cancel?_length_lt (h : cancel? code = some code') : code'.length < code.length := by
  induction code generalizing code' with
  | nil => cases h
  | cons x code ih =>
    rw [cancel?] at h
    split at h
    · next found hfound =>
      cases h
      cases x with
      | inc w => exact Nat.lt_succ_of_le (withoutDec?_thins hfound).length_le
      | dec w => exact Nat.lt_succ_of_le (withoutInc?_thins hfound).length_le
      | _ => cases hfound
    · obtain ⟨rest, hrest, rfl⟩ := map_eq_some_iff.1 h
      exact Nat.succ_lt_succ (ih hrest)

/-- Pairs are taken away until there are none; each makes the code shorter. -/
theorem cancelAll_spec {steps : Nat} (hsteps : code.length ≤ steps) :
    cancel? (cancelAll steps code).1 = none ∧
      (cancelAll steps code).1.length + (cancelAll steps code).2 ≤ code.length ∧
      ((cancelAll steps code).2 = 0 → (cancelAll steps code).1 = code) := by
  induction steps generalizing code with
  | zero =>
    obtain rfl := eq_nil_of_length_eq_zero (Nat.le_zero.1 hsteps)
    exact ⟨rfl, le_rfl, fun _ => rfl⟩
  | succ steps ih =>
    rw [cancelAll]
    split
    · next hnone => exact ⟨hnone, le_rfl, fun _ => rfl⟩
    · next code' hcode' =>
      have hlt := cancel?_length_lt hcode'
      obtain ⟨hdone, hlength, -⟩ := @ih code' (by omega)
      exact ⟨hdone, by dsimp only; omega, fun h => absurd h (Nat.succ_ne_zero _)⟩

theorem sum_blocks (f : Func) (k : Block → Nat) : (f.blocks.toList.map k).sum =
    ∑ b ∈ Finset.range f.blocks.size, ((f.block? b).map k).getD 0 := by
  have hlist (bs : List Block) :
      (bs.map k).sum = ∑ i ∈ Finset.range bs.length, ((bs[i]?).map k).getD 0 := by
    induction bs with
    | nil => rfl
    | cons b bs ih =>
      rw [map_cons, sum_cons, ih, length_cons, Finset.sum_range_succ', add_comm]
      rfl
  rw [hlist, Array.length_toList]
  simp only [Array.getElem?_toList, Func.block?]

theorem length_instrs (f : Func) :
    f.instrs.length = ∑ b ∈ Finset.range f.blocks.size, (codeOf f b).length := by
  rw [Func.instrs, length_flatMap, sum_blocks]
  refine Finset.sum_congr rfl fun b _ => ?_
  rw [codeOf]
  cases f.block? b <;> rfl

theorem FuncThins.codeOf (h : FuncThins f g) (b : BlockId) :
    Thins (Count.codeOf f b) (Count.codeOf g b) := by
  cases hb : f.block? b with
  | none =>
    rw [Count.codeOf, Count.codeOf, hb, h.none hb]
    exact .nil
  | some block =>
    obtain ⟨block', hb', -⟩ := h.forth hb
    rw [codeOf_eq hb, codeOf_eq hb']
    exact h.code b block block' hb hb'

/-- A block with less code makes a function shorter. -/
theorem FuncThins.length_lt (h : FuncThins f g)
    (hb : (Count.codeOf g b).length < (Count.codeOf f b).length) :
    g.instrs.length < f.instrs.length := by
  have hlt : b ∈ Finset.range f.blocks.size := by
    cases hblock : f.block? b with
    | none => simp [Count.codeOf, hblock] at hb
    | some block => exact Finset.mem_range.2 (Func.block_lt hblock)
  rw [length_instrs, length_instrs, h.size]
  exact Finset.sum_lt_sum (fun c _ => (h.codeOf c).length_le) ⟨b, hlt, hb⟩

end lengths

-- ======== cancellations

/-- What taking away pairs does to a function, and how many were taken away. -/
structure Cancels (f : Func) (r : Func × Nat) : Prop where
  thins : FuncThins f r.1
  balanced : Balanced f r.1
  shorter : r.1.instrs.length + r.2 ≤ f.instrs.length
  same : r.2 = 0 → r.1 = f

namespace Cancels

variable {f g h : Func} {n m : Nat}

theorem refl (f : Func) : Cancels f (f, 0) := ⟨.refl f, .refl f, le_rfl, fun _ => rfl⟩

theorem trans (hf : Cancels f (g, n)) (hg : Cancels g (h, m)) : Cancels f (h, n + m) where
  thins := hf.thins.trans hg.thins
  balanced := hf.balanced.trans hf.thins hg.balanced
  shorter := by
    have := hf.shorter
    have := hg.shorter
    dsimp only at *
    omega
  same hzero := by
    obtain ⟨hn, hm⟩ := Nat.add_eq_zero_iff.1 hzero
    exact (hg.same hm).trans (hf.same hn)

/-- Steps that each take away pairs, one after the other. -/
theorem foldlM {α : Type} {act : Func → α → Except Fault (Func × Nat)} {P : Func → Prop}
    (hP : ∀ g h, P g → FuncThins g h → P h)
    (hact : ∀ g a, P g → ∃ r, act g a = .ok r ∧ Cancels g r) (as : List α) :
    ∀ {g : Func} {n : Nat}, P g → Cancels f (g, n) → ∃ r, as.foldlM (fun (f, n) a => do
        let (f, k) ← act f a return (f, n + k)) (g, n) = .ok r ∧ Cancels f r := by
  induction as with
  | nil => exact fun _ h => ⟨_, rfl, h⟩
  | cons a as ih =>
    intro g n hg h
    obtain ⟨⟨g', k⟩, hr, hk⟩ := hact g a hg
    obtain ⟨r, hrest, hcancels⟩ := ih (hP g g' hg hk.thins) (h.trans hk)
    refine ⟨r, ?_, hcancels⟩
    rw [foldlM_cons]
    simp only [bind, Except.bind, hr]
    exact hrest

end Cancels

section eliminate

variable {f : Func} {b : BlockId}

/-- Pairs are counted block by block. -/
theorem cancelBlocks_count (f : Func) : (cancelBlocks f).2 = ∑ b ∈ Finset.range f.blocks.size,
    (cancelAll (codeOf f b).length (codeOf f b)).2 := by
  have hsum : (cancelBlocks f).2 =
      (f.blocks.toList.map fun b => (cancelAll b.code.length b.code).2).sum := by
    rw [cancelBlocks]
    dsimp only
    rw [← Array.foldl_toList, Array.toList_map, List.foldl_map, List.sum_eq_foldl, List.foldl_map]
  rw [hsum, sum_blocks]
  refine Finset.sum_congr rfl fun b _ => ?_
  rw [codeOf]
  cases f.block? b <;> rfl

theorem codeOf_cancelBlocks (f : Func) (b : BlockId) :
    codeOf (cancelBlocks f).1 b = (cancelAll (codeOf f b).length (codeOf f b)).1 := by
  rw [codeOf, codeOf, block?_cancelBlocks]
  cases f.block? b <;> rfl

/-- Cancelling in all blocks. -/
theorem cancelBlocks_cancels (f : Func) : Cancels f (cancelBlocks f) where
  thins := cancelBlocks_thins f
  balanced := by
    refine balanced_of_blocks (cancelBlocks_thins f) fun b v n => ?_
    rw [codeOf_cancelBlocks]
    exact cancelAll_steady _
  shorter := by
    rw [length_instrs, length_instrs, (cancelBlocks_thins f).size, cancelBlocks_count,
      ← Finset.sum_add_distrib]
    refine Finset.sum_le_sum fun b _ => ?_
    rw [codeOf_cancelBlocks]
    exact (cancelAll_spec le_rfl).2.1
  same hzero := by
    rw [cancelBlocks_count, Finset.sum_eq_zero_iff] at hzero
    have hblocks : (cancelBlocks f).1.blocks = f.blocks := by
      refine ext_getElem? fun i => ?_
      rw [blocks_cancelBlocks, Array.getElem?_map]
      cases hb : f.blocks[i]? with
      | none => rfl
      | some b =>
        have hcount := hzero i (Finset.mem_range.2 (Func.block_lt hb))
        rw [codeOf_eq hb] at hcount
        rw [map_some, (cancelAll_spec le_rfl).2.2 hcount]
    calc (cancelBlocks f).1 = { f with blocks := (cancelBlocks f).1.blocks } := rfl
      _ = f := by rw [hblocks]

/-- A block that is the only one to lead to others does not lead to itself,
if it can be reached. -/
theorem not_mem_successors_of_alone (hf : WellFormed f) (hb : f.Reachable b)
    (halone : ∀ s ∈ f.successors b, ∀ c, s ∈ f.successors c → c = b) : b ∉ f.successors b := by
  intro hloop
  induction hb with
  | entry => exact hf.entry_not_successor hloop
  | @edge c t hc ht ih =>
    obtain rfl := halone t hloop c ht
    exact ih halone hloop

/-- The blocks behind have one way in. -/
theorem leadsAlone_iff {succs : List BlockId} (h : leadsAlone f succs = .ok true) :
    ∀ s ∈ succs, (f.preds s).length = 1 := by
  induction succs with
  | nil => exact fun s hs => nomatch hs
  | cons s succs ih =>
    rw [leadsAlone] at h
    split at h
    · cases h
    · split at h
      · next hone =>
        intro t ht
        rcases mem_cons.1 ht with rfl | ht
        · exact hone
        · exact ih h t ht
      · cases h

/-- The only predecessor of a block is the one that leads to it. -/
theorem eq_of_preds_length {s c : BlockId} (hf : WellFormed f) (hs : (f.preds s).length = 1)
    (hb : s ∈ f.successors b) (hc : s ∈ f.successors c) : c = b := by
  obtain ⟨p, hp⟩ := length_eq_one_iff.1 hs
  have hbp := (Func.mem_preds_iff hf.id).2 hb
  have hcp := (Func.mem_preds_iff hf.id).2 hc
  rw [hp, List.mem_singleton] at hbp hcp
  rw [hbp, hcp]

/-- What is found at the end of a block is cancelled over its edges. -/
theorem Found.across {i : Nat} {w : Var} {found : List (BlockId × Nat)}
    (h : Found f b i w found) (hleads : f.successors b ≠ []) (hloop : b ∉ f.successors b)
    (halone : ∀ s ∈ f.successors b, ∀ c, s ∈ f.successors c → c = b) :
    Across f (without f b i found) b w where
  thins := h.thins hloop
  leads := hleads
  alone := halone
  apart := hloop
  unused hw := by
    refine h.term (contains_iff_mem.2 ?_)
    rw [termOf] at hw
    cases hb : f.block? b with
    | none => simp [Event.uses, hb] at hw
    | some block => simpa [Event.uses, hb, Block.termUses] using hw
  here v n := by
    rw [without, codeOf_eraseAt, codeOf_eraseAll_of_not_mem (h.edges ▸ hloop)]
    refine eraseIdx_steady h.inc fun x hx => Bool.eq_false_iff.2 fun hblocks => ?_
    exact h.behind (any_eq_true.2 ⟨x, hx, hblocks⟩)
  next s hs v n m hn := by
    have hne : s ≠ b := fun heq => hloop (heq ▸ hs)
    obtain ⟨p, hp, rfl⟩ := mem_map.1 (h.edges ▸ hs)
    rw [without, eraseAt, codeOf_modifyBlock_of_ne hne, codeOf_eraseAll h.nodup hp]
    exact withoutDec?_steady (withoutDec?_of_leadingDec? (h.decs p hp)) hn
  other c hc hcs := by
    rw [without, eraseAt, codeOf_modifyBlock_of_ne hc, codeOf_eraseAll_of_not_mem (h.edges ▸ hcs)]

/-- What is kept of a function while counts are cancelled. -/
structure Sound (f : Func) : Prop extends WellFormed f where
  reachable : ∀ b < f.blocks.size, f.Reachable b

theorem Sound.of_thins {g : Func} (hf : Sound f) (h : FuncThins f g) : Sound g :=
  ⟨h.wellFormed hf.toWellFormed, fun b hb => h.reachable_iff.2 (hf.reachable b (h.size ▸ hb))⟩

/-- One count at the end of a block that is the only one to lead on. -/
theorem cancelOut_cancels (hf : Sound f) (hb : b < f.blocks.size) (hleads : f.successors b ≠ [])
    (hone : ∀ s ∈ f.successors b, (f.preds s).length = 1) (i : Nat) :
    ∃ r, cancelOut f b (f.successors b) i = .ok r ∧ Cancels f r := by
  have halone : ∀ s ∈ f.successors b, ∀ c, s ∈ f.successors c → c = b := fun s hs c hc =>
    eq_of_preds_length hf.toWellFormed (hone s hs) hs hc
  have hloop := not_mem_successors_of_alone hf.toWellFormed (hf.reachable b hb) halone
  rcases cancelOut_cases b i fun _ _ _ => hloop with h | ⟨w, found, hfound, h⟩
  · exact ⟨_, h, .refl f⟩
  · have hacross := hfound.across hleads hloop halone
    refine ⟨_, h, hacross.thins, hacross.balanced hf.entry_not_successor, ?_, nofun⟩
    refine hacross.thins.length_lt (b := b) ?_
    rw [without, codeOf_eraseAt, codeOf_eraseAll_of_not_mem (hfound.edges ▸ hloop),
      List.length_eraseIdx_of_lt (List.getElem?_eq_some_iff.1 hfound.inc).1]
    have := (List.getElem?_eq_some_iff.1 hfound.inc).1
    omega

/-- Cancelling over the edges of a block. -/
theorem cancelEnd_cancels (hf : Sound f) (b : BlockId) :
    ∃ r, cancelEnd f b = .ok r ∧ Cancels f r := by
  rw [cancelEnd]
  dsimp only
  split
  · exact ⟨_, rfl, .refl f⟩
  · next hleads =>
    rw [List.isEmpty_iff] at hleads
    obtain ⟨alone, halone⟩ := leadsAlone_ok fun s hs => hf.lt_of_successor hs
    rw [halone]
    cases alone with
    | false => exact ⟨_, rfl, .refl f⟩
    | true =>
      have hone := leadsAlone_iff halone
      obtain ⟨t, ht⟩ := exists_mem_of_ne_nil _ hleads
      have hb := Func.lt_of_mem_successors ht
      refine @Cancels.foldlM f _ (fun g i => cancelOut g b (f.successors b) i) (FuncThins f)
        (fun g h hg hh => hg.trans hh) (fun g i hg => ?_) _ f 0 (.refl f) (.refl f)
      rw [← hg.successors_eq]
      refine cancelOut_cancels (hf.of_thins hg) (hg.size ▸ hb) ?_ ?_ i
      · rwa [hg.successors_eq]
      · intro s hs
        rw [hg.preds_eq]
        exact hone s (hg.successors_eq b ▸ hs)

/-- Cancelling over all edges. -/
theorem cancelEdges_cancels (hf : Sound f) : ∃ r, cancelEdges f = .ok r ∧ Cancels f r :=
  Cancels.foldlM (P := Sound) (fun _ _ hg hh => hg.of_thins hh)
    (fun _ b hg => cancelEnd_cancels hg b) _ hf (.refl f)

-- -------------------------------------------------------------- to the end

/-- Nothing is left to cancel. -/
structure Settled (f : Func) : Prop where
  blocks : ∀ b ∈ f.blocks, cancel? b.code = none
  edges : cancelEdges f = .ok (f, 0)

/-- Where nothing changed there is no pair left. -/
theorem cancel?_of_same (hf : (cancelBlocks f).1 = f) : ∀ b ∈ f.blocks, cancel? b.code = none := by
  intro b hb
  rw [← hf, blocks_cancelBlocks] at hb
  obtain ⟨b, -, rfl⟩ := mem_map.1 hb
  exact (cancelAll_spec le_rfl).1

/-- Rounds go on until nothing is left, if there may be as many as there are
instructions. -/
theorem eliminateWithin_cancels (rounds : Nat) (hf : Sound f) (hrounds : f.instrs.length < rounds) :
    ∃ r, eliminateWithin rounds f = .ok r ∧ Cancels f r ∧ Settled r.1 := by
  induction rounds generalizing f with
  | zero => exact absurd hrounds (Nat.not_lt_zero _)
  | succ rounds ih =>
    have hblocks := cancelBlocks_cancels f
    obtain ⟨⟨g, m⟩, hg, hedges⟩ := cancelEdges_cancels (hf.of_thins hblocks.thins)
    have hround := hblocks.trans hedges
    rw [eliminateWithin]
    simp only [bind, Except.bind, hg]
    split
    · next hzero =>
      obtain ⟨hn, hm⟩ := Nat.add_eq_zero_iff.1 hzero
      have hsame := hblocks.same hn
      obtain rfl : g = f := (hedges.same hm).trans hsame
      refine ⟨_, rfl, .refl g, cancel?_of_same hsame, ?_⟩
      rw [hsame, hm] at hg
      exact hg
    · next hsome =>
      have hshorter : g.instrs.length + ((cancelBlocks f).2 + m) ≤ f.instrs.length := hround.shorter
      obtain ⟨⟨h, k⟩, hr, hcancels, hsettled⟩ := @ih g (hf.of_thins hround.thins) (by omega)
      rw [hr]
      exact ⟨_, rfl, hround.trans hcancels, hsettled⟩

/-- Cancelling in a checked function whose blocks can all be reached has no
fault and goes on until nothing is left. It changes nothing but counts, and on
every path the counts of every variable are the same at calls, at uniqueness
tests and at the end, and not smaller where the variable is used. -/
theorem eliminate_balanced (hcheck : f.check .expanded = .ok ())
    (hreach : ∀ b < f.blocks.size, f.Reachable b) :
    ∃ g n, eliminate f = .ok (g, n) ∧ Settled g ∧ g.entry = f.entry ∧
      List.Forall₂ (fun b b' => b'.params = b.params ∧ b'.term = b.term ∧
        b'.code.filter (!·.isCount) = b.code.filter (!·.isCount))
        f.blocks.toList g.blocks.toList ∧
      Balanced f g := by
  have hf : Sound f := ⟨(check_ok_iff.1 hcheck).toWellFormed, hreach⟩
  obtain ⟨⟨g, n⟩, hr, hcancels, hsettled⟩ :=
    eliminateWithin_cancels _ hf (Nat.lt_succ_self f.instrs.length)
  refine ⟨g, n, hr, hsettled, hcancels.thins.entry, ?_, hcancels.balanced⟩
  refine forall₂_iff_get.2 ⟨hcancels.thins.blocks.length_eq, fun i hi hi' => ?_⟩
  have halike := (forall₂_iff_get.1 hcancels.thins.blocks).2 i hi hi'
  refine ⟨halike.params, halike.term, (hcancels.thins.code i _ _ ?_ ?_).filter_eq⟩
  · rw [Func.block?, ← Array.getElem?_toList]
    exact getElem?_eq_getElem hi
  · rw [Func.block?, ← Array.getElem?_toList]
    exact getElem?_eq_getElem hi'

end eliminate

/-- A function that counts up before a branch and down on both sides of it. -/
def splitting : Func where
  name := "split"
  params := [⟨0, .str, .owned⟩, ⟨1, .bool, .owned⟩]
  result := .str
  blocks := #[
    ⟨0, [], [.inc 0, .call 2 "g" [0] false, .inc 0], some (.branch 1 (some 1) (some 2))⟩,
    ⟨1, [], [.dec 0, .dec 0], some (.ret 2)⟩,
    ⟨2, [], [.lit 3 (.int 1), .dec 0, .dec 0], some (.ret 2)⟩]
  entry := 0
  types := #[.str, .bool, .str, .int]

/-- The same without the counts at the branch; the count before the call
stays. -/
def splitShort : Func :=
  { splitting with blocks := #[
    ⟨0, [], [.inc 0, .call 2 "g" [0] false], some (.branch 1 (some 1) (some 2))⟩,
    ⟨1, [], [.dec 0], some (.ret 2)⟩,
    ⟨2, [], [.lit 3 (.int 1), .dec 0], some (.ret 2)⟩] }

theorem eliminate_splitting_balanced : splitting.check .expanded = .ok () ∧
    (∀ b < splitting.blocks.size, splitting.Reachable b) ∧
    eliminate splitting = .ok (splitShort, 1) ∧ Balanced splitting splitShort := by
  have hcheck : splitting.check .expanded = .ok () := by decide +kernel
  have hreach : ∀ b < splitting.blocks.size, splitting.Reachable b := by
    intro b hb
    have hb : b < 3 := hb
    have hnext : ∀ s ∈ [1, 2], splitting.Reachable s := by
      intro s hs
      exact .edge .entry hs
    interval_cases b
    · exact .entry
    · exact hnext 1 (by decide)
    · exact hnext 2 (by decide)
  have hrun : eliminate splitting = .ok (splitShort, 1) := by cbv
  obtain ⟨g, n, hg, -, -, -, hbalanced⟩ := eliminate_balanced hcheck hreach
  rw [hrun] at hg
  obtain ⟨rfl, rfl⟩ := Prod.mk.inj (Except.ok.inj hg)
  exact ⟨hcheck, hreach, hrun, hbalanced⟩

end RefCount.Count
