/-
Dominators are found exactly: the chain of a block that can be reached holds
the blocks that every way from the entry to it passes, and no others.

# The argument

Each entry that is ever made is right in two ways that later entries cannot
spoil, since they speak of the graph alone (`Placed`): a way leads from the
entry made to the block over blocks that are not earlier, and every dominator
of the block but itself dominates what was entered. So dominators are on the
chain at any time.

What is on a chain is on all ways with few edges that go back: after one pass
on those with none, and with each pass on those with one more (`Level`). A
block that can be avoided at all can be avoided on a way with fewer such edges
than there are blocks, and there are more passes than that. From then on an
entry is the closest dominator, of which there is one, so a pass changes
nothing: no bound on passes or on steps along chains is ever met (`Settles`).
-/
import Mathlib
import RefCount.Proofs.Ir.Order

namespace RefCount.Ir

open List Option Func

namespace Func

variable {f : Func} {a b c i p x : BlockId} {k l : Nat}

-- ======== ways

/-- Whether a way from the entry to a block avoids another, with at most so
many edges that go back in the order. -/
inductive Dodges (f : Func) (a : BlockId) : Nat → BlockId → Prop
  | entry {k : Nat} (h : f.entry ≠ a) : Dodges f a k f.entry
  | forward {k : Nat} {p c : BlockId} (h : Dodges f a k p) (hc : c ∈ f.successors p)
      (hlt : f.place p < f.place c) (hne : c ≠ a) : Dodges f a k c
  | back {k : Nat} {p c : BlockId} (h : Dodges f a k p) (hc : c ∈ f.successors p)
      (hne : c ≠ a) : Dodges f a (k + 1) c

/-- The places of the blocks in the order of a pass. -/
abbrev places (f : Func) : Array Nat := f.placesIn f.reversePostorder

/-- The blocks that a pass looks at. -/
abbrev later (f : Func) : List BlockId := f.reversePostorder.drop 1

/-- Whether every way from the entry to a block passes another. -/
def Dominates (f : Func) (a b : BlockId) : Prop := ∀ k, ¬f.Dodges a k b

theorem Dodges.mono (h : f.Dodges a k b) (hkl : k ≤ l) : f.Dodges a l b := by
  induction h generalizing l with
  | entry h => exact .entry h
  | forward _ hc hlt hne ih => exact .forward (ih hkl) hc hlt hne
  | back _ hc hne ih =>
    obtain ⟨m, rfl⟩ := Nat.exists_eq_add_of_le hkl
    rw [add_right_comm]
    exact .back (ih (Nat.le_add_right _ m)) hc hne

/-- A way that avoids one block avoids another too, or leads there. -/
theorem Dodges.split (h : f.Dodges x k b) (i : BlockId) : f.Dodges i k b ∨ f.Dodges x k i := by
  induction h with
  | entry hx =>
    by_cases hi : f.entry = i
    · exact .inr (hi ▸ .entry hx)
    · exact .inl (.entry hi)
  | @forward k p c h hc hlt hne ih =>
    rcases ih with ih | ih
    · by_cases hi : c = i
      · exact .inr (hi ▸ .forward h hc hlt hne)
      · exact .inl (.forward ih hc hlt hi)
    · exact .inr ih
  | @back k p c h hc hne ih =>
    rcases ih with ih | ih
    · by_cases hi : c = i
      · exact .inr (hi ▸ .back h hc hne)
      · exact .inl (.back ih hc hi)
    · exact .inr (ih.mono (Nat.le_succ k))

/-- A way goes on over blocks that are to be taken. -/
theorem Dodges.append (h : f.Dodges a k i)
    (hway : Relation.ReflTransGen (fun p c => c ∈ f.successors p ∧ c ≠ a) i b) :
    ∃ l, f.Dodges a l b := by
  induction hway with
  | refl => exact ⟨k, h⟩
  | tail _ hedge ih =>
    obtain ⟨l, hl⟩ := ih
    exact ⟨l + 1, .back hl hedge.1 hedge.2⟩

/-- Fewer edges that go back than there are blocks are enough. -/
theorem Dodges.bounded (hb : b < f.blocks.size) (h : f.Dodges a k b) :
    f.Dodges a f.blocks.size b := by
  classical
  -- blocks that are led to, with at most so many edges that go back
  set n := f.blocks.size
  let led (k : Nat) : Finset BlockId := (Finset.range n).filter (f.Dodges a k)
  have hled : ∀ {k c}, f.Dodges a k c → c < n → c ∈ led k := fun hc hlt =>
    Finset.mem_filter.2 ⟨Finset.mem_range.2 hlt, hc⟩
  have hmono : Monotone led := fun k l hkl c hc =>
    hled ((Finset.mem_filter.1 hc).2.mono hkl) (Finset.mem_range.1 (Finset.mem_filter.1 hc).1)
  have hcard : Monotone fun k => (led k).card := fun k l hkl => Finset.card_le_card (hmono hkl)
  -- once nothing is added, nothing is added any more
  have hnext : ∀ m, led m = led (m + 1) → led (m + 1) = led (m + 2) := by
    intro m hm
    refine Finset.Subset.antisymm (hmono (Nat.le_succ _)) fun c hc => ?_
    obtain ⟨hlt, hc'⟩ := Finset.mem_filter.1 hc
    replace hlt := Finset.mem_range.1 hlt
    clear hc
    generalize hl : m + 2 = l at hc'
    induction hc' with
    | entry h => exact hled (.entry h) hlt
    | forward _ hc hplace hne ih =>
      have hp := ih (lt_of_mem_successors hc) hl
      exact hled (.forward (Finset.mem_filter.1 hp).2 hc hplace hne) hlt
    | back hp hc hne =>
      obtain rfl : m + 1 = _ := Nat.succ.inj hl
      have hp' := hled hp (lt_of_mem_successors hc)
      rw [← hm] at hp'
      exact hled (.back (Finset.mem_filter.1 hp').2 hc hne) hlt
  have hstable := Nat.stabilises_of_monotone hcard
    (fun m => (Finset.card_le_card (Finset.filter_subset _ _)).trans (Finset.card_range n).le)
    (fun m hm => by
      have heq := Finset.eq_of_subset_of_card_le (hmono (Nat.le_succ m)) hm.ge
      exact congrArg Finset.card (hnext m heq))
    (Nat.le_add_left n k)
  have heq : led n = led (k + n) :=
    Finset.eq_of_subset_of_card_le (hmono (Nat.le_add_left n k)) hstable.le
  have hmem := hled (h.mono (Nat.le_add_right k n)) hb
  rw [← heq] at hmem
  exact (Finset.mem_filter.1 hmem).2

theorem dominates_self : f.Dominates b b := by
  rintro k (_ | _ | _)
  all_goals contradiction

end Func

-- ======== chains

namespace Dominators

variable {f : Func} {d : Dominators} {a b c i m p x : BlockId} {k : Nat}

/-- Whether a block is on the chain of another. -/
inductive Above (d : Dominators) : BlockId → BlockId → Prop
  | refl (a : BlockId) : Above d a a
  | up {a b c : BlockId} (h : d.idom b = some c) (ha : Above d a c) : Above d a b

theorem Above.trans (h : d.Above a b) (h' : d.Above b c) : d.Above a c := by
  induction h' with
  | refl => exact h
  | up hc _ ih => exact .up hc ih

/-- A block on a chain other than its first is on the chain of the second. -/
theorem Above.of_ne (h : d.Above a b) (hne : a ≠ b) (hb : d.idom b = some c) : d.Above a c := by
  cases h with
  | refl => exact absurd rfl hne
  | up hc ha =>
    rw [hb] at hc
    rwa [some.inj hc]

/-- Two chains are followed upwards, the one whose end comes later in the order
first, until they meet; there is no bound on the steps. -/
inductive Joins (d : Dominators) (order : Array Nat) : BlockId → BlockId → BlockId → Prop
  | met (a : BlockId) : Joins d order a a a
  | left {a b c m : BlockId} (hlt : order.getD b 0 < order.getD a 0) (hc : d.idom a = some c)
      (h : Joins d order c b m) : Joins d order a b m
  | right {a b c m : BlockId} (hlt : order.getD a 0 < order.getD b 0) (hc : d.idom b = some c)
      (h : Joins d order a c m) : Joins d order a b m

/-- The known blocks among some are gone through, and chains followed up to
where they meet. -/
inductive Gathers (d : Dominators) (order : Array Nat) :
    List BlockId → Option BlockId → Option BlockId → Prop
  | nil (n : Option BlockId) : Gathers d order [] n n
  | unknown {p : BlockId} {ps : List BlockId} {n m : Option BlockId} (hp : d.idom p = none)
      (h : Gathers d order ps n m) : Gathers d order (p :: ps) n m
  | first {p : BlockId} {ps : List BlockId} {m : Option BlockId} (hp : (d.idom p).isSome)
      (h : Gathers d order ps (some p) m) : Gathers d order (p :: ps) none m
  | known {p n k : BlockId} {ps : List BlockId} {m : Option BlockId} (hp : (d.idom p).isSome)
      (hk : Joins d order p n k) (h : Gathers d order ps (some k) m) :
      Gathers d order (p :: ps) (some n) m

/-- One pass over blocks, and whether it changes anything. -/
inductive Sweeps (f : Func) (order : Array Nat) :
    List BlockId → Dominators × Bool → Dominators × Bool → Prop
  | nil (x : Dominators × Bool) : Sweeps f order [] x x
  | same {b : BlockId} {bs : List BlockId} {d : Dominators} {changed : Bool}
      {y : Dominators × Bool} (hb : d.Gathers order (f.preds b) none (d.idom b))
      (h : Sweeps f order bs (d, changed) y) : Sweeps f order (b :: bs) (d, changed) y
  | new {b : BlockId} {bs : List BlockId} {d : Dominators} {changed : Bool}
      {n : Option BlockId} {y : Dominators × Bool} (hb : d.Gathers order (f.preds b) none n)
      (hn : n ≠ d.idom b) (h : Sweeps f order bs (d.setIfInBounds b n, true) y) :
      Sweeps f order (b :: bs) (d, changed) y

/-- Passes follow each other until one changes nothing; there is no bound on
their number. -/
inductive Settles (f : Func) (order : Array Nat) (blocks : List BlockId) :
    Dominators → Dominators → Prop
  | done {d d' : Dominators} (h : Sweeps f order blocks (d, false) (d', false)) :
      Settles f order blocks d d'
  | again {d d₁ d' : Dominators} (h : Sweeps f order blocks (d, false) (d₁, true))
      (h' : Settles f order blocks d₁ d') : Settles f order blocks d d'

/-- What is right about an entry, whatever the others are. -/
structure Placed (f : Func) (b i : BlockId) : Prop where
  earlier : f.place i < f.place b
  way : Relation.ReflTransGen (fun p c => c ∈ f.successors p ∧ f.place i ≤ f.place c) i b
  strict : ∀ a, f.Dominates a b → a ≠ b → f.Dominates a i

/-- The entries that have been made are right, and chains end at the entry of
the function. -/
structure Rooted (f : Func) (d : Dominators) : Prop where
  size : d.size = f.blocks.size
  entry : d.idom f.entry = some f.entry
  known : ∀ b, (d.idom b).isSome → b ∈ f.reversePostorder
  up : ∀ b i, d.idom b = some i → (d.idom i).isSome
  placed : ∀ b i, b ≠ f.entry → d.idom b = some i → Placed f b i

namespace Rooted

variable (hd : Rooted f d)
include hd

/-- A chain goes to earlier blocks. -/
theorem place_le (h : d.Above a b) : f.place a ≤ f.place b := by
  induction h with
  | refl => exact le_rfl
  | @up b c hc _ ih =>
    by_cases hb : b = f.entry
    · subst hb
      rw [hd.entry] at hc
      rwa [some.inj hc]
    · exact ih.trans (hd.placed b c hb hc).earlier.le

/-- The blocks of a chain are known. -/
theorem isSome_of_above (h : d.Above a b) (hb : (d.idom b).isSome) : (d.idom a).isSome := by
  induction h with
  | refl => exact hb
  | up hc _ ih => exact ih (hd.up _ _ hc)

/-- A way leads down a chain over blocks that are not earlier than its end. -/
theorem way_of_above (h : d.Above a b) :
    Relation.ReflTransGen (fun p c => c ∈ f.successors p ∧ f.place a ≤ f.place c) a b := by
  induction h with
  | refl => exact .refl
  | @up b c hc ha ih =>
    by_cases hb : b = f.entry
    · subst hb
      rw [hd.entry] at hc
      rwa [some.inj hc]
    · refine ih.trans (Relation.ReflTransGen.mono (fun p q hpq => ?_) _ _
        (hd.placed b c hb hc).way)
      exact ⟨hpq.1, (hd.place_le ha).trans hpq.2⟩

/-- Every dominator of a known block is on its chain. -/
theorem above_of_dominates (hb : (d.idom b).isSome) (h : f.Dominates a b) : d.Above a b := by
  generalize hk : f.place b = k
  induction k using Nat.strong_induction_on generalizing b with
  | _ k ih =>
    by_cases hab : a = b
    · rw [hab]
      exact .refl b
    · obtain ⟨i, hi⟩ := isSome_iff_exists.1 hb
      by_cases hbe : b = f.entry
      · subst hbe
        exact absurd (.entry (Ne.symm hab)) (h 0)
      · have hplaced := hd.placed b i hbe hi
        exact .up hi (ih _ (hk ▸ hplaced.earlier) (hd.up b i hi) (hplaced.strict a h hab) rfl)

/-- Where two chains meet. -/
theorem meet_spec (hentry : f.entry < f.blocks.size) {steps : Nat}
    (ha : (d.idom a).isSome) (hb : (d.idom b).isSome) (hsteps : f.place a + f.place b ≤ steps) :
    d.Joins f.places a b (d.meet f.places steps a b) ∧ d.Above (d.meet f.places steps a b) a ∧
      d.Above (d.meet f.places steps a b) b ∧ ∀ x, d.Above x a → d.Above x b →
        d.Above x (d.meet f.places steps a b) := by
  have hplace : ∀ b, (d.idom b).isSome →
      f.places.getD b 0 = f.place b := fun b hb =>
    getD_placesIn (nodup_reversePostorder f)
      (fun c hc => lt_of_mem_postorder (mem_reversePostorder.1 hc)) (hd.known b hb)
  -- a block that is not the earliest has another above it
  have hup : ∀ b, (d.idom b).isSome → 0 < f.place b →
      ∃ i, d.idom b = some i ∧ (d.idom i).isSome ∧ f.place i < f.place b := by
    intro b hb hpos
    obtain ⟨i, hi⟩ := isSome_iff_exists.1 hb
    have hne : b ≠ f.entry := by
      rintro rfl
      rw [place_entry hentry] at hpos
      exact absurd hpos (lt_irrefl 0)
    exact ⟨i, hi, hd.up b i hi, (hd.placed b i hne hi).earlier⟩
  induction steps generalizing a b with
  | zero =>
    have hab : a = b := place_inj (hd.known a ha) (by omega)
    subst hab
    exact ⟨.met a, .refl a, .refl a, fun x hx _ => hx⟩
  | succ steps ih =>
    unfold meet
    by_cases hab : a = b
    · subst hab
      rw [if_pos rfl]
      exact ⟨.met a, .refl a, .refl a, fun x hx _ => hx⟩
    have hpa := hplace a ha
    have hpb := hplace b hb
    rw [if_neg hab, hpa, hpb]
    by_cases hlt : f.place b < f.place a
    · obtain ⟨i, hi, hik, hia⟩ := hup a ha (by omega)
      rw [if_pos hlt, hi, getD_some]
      obtain ⟨h₀, h₁, h₂, h₃⟩ := ih hik hb (by omega)
      refine ⟨.left (by omega) hi h₀, .up hi h₁, h₂, fun x hxa hxb => h₃ x (hxa.of_ne ?_ hi) hxb⟩
      rintro rfl
      exact absurd (hd.place_le hxb) (by omega)
    · have hne : f.place a ≠ f.place b := fun h => hab (place_inj (hd.known a ha) h)
      obtain ⟨i, hi, hik, hib⟩ := hup b hb (by omega)
      rw [if_neg hlt, hi, getD_some]
      obtain ⟨h₀, h₁, h₂, h₃⟩ := ih ha hik (by omega)
      refine ⟨.right (by omega) hi h₀, h₁, .up hi h₂,
        fun x hxa hxb => h₃ x hxa (hxb.of_ne ?_ hi)⟩
      rintro rfl
      exact absurd (hd.place_le hxa) (by omega)

/-- Two chains take fewer steps than are allowed. -/
theorem place_add_le (ha : (d.idom a).isSome) (hb : (d.idom b).isSome) :
    f.place a + f.place b ≤ 2 * d.size + 2 := by
  have ha' := place_lt (hd.known a ha)
  have hb' := place_lt (hd.known b hb)
  rw [← hd.size] at ha' hb'
  omega

/-- The known blocks among some are gone through without meeting a bound. -/
theorem gathers_ofPreds (hentry : f.entry < f.blocks.size) (ps : List BlockId) :
    d.Gathers f.places ps none (d.ofPreds f.places ps) := by
  have hnone : ∀ k ∈ (none : Option BlockId), (d.idom k).isSome := fun k hk => by cases hk
  unfold ofPreds
  -- the induction is on the blocks left, after any blocks gone through
  revert hnone
  generalize (none : Option BlockId) = n
  induction ps generalizing n with
  | nil => exact fun _ => .nil n
  | cons p ps ih =>
    intro hn
    rw [foldl_cons]
    cases hp : d.idom p with
    | none => exact .unknown hp (ih n hn)
    | some i =>
      have hpk : (d.idom p).isSome := by rw [hp]; rfl
      cases n with
      | none =>
        refine .first hpk (ih (some p) fun k hk => ?_)
        rwa [← some.inj hk]
      | some m =>
        have hmk := hn m rfl
        obtain ⟨hjoins, habove, -⟩ := hd.meet_spec hentry hpk hmk (hd.place_add_le hpk hmk)
        refine .known hpk hjoins (ih _ fun k hk => ?_)
        rw [← some.inj hk]
        exact hd.isSome_of_above habove hpk

/-- Where the chains of the known blocks among some meet. -/
theorem ofPreds_spec (hentry : f.entry < f.blocks.size) (ps : List BlockId) :
    (d.ofPreds f.places ps = none → ∀ p ∈ ps, d.idom p = none) ∧
    ∀ m, d.ofPreds f.places ps = some m → (∀ p ∈ ps, (d.idom p).isSome → d.Above m p) ∧
      (∃ p ∈ ps, (d.idom p).isSome) ∧
      ∀ x, (∀ p ∈ ps, (d.idom p).isSome → d.Above x p) → d.Above x m := by
  induction ps using List.reverseRecOn with
  | nil =>
    refine ⟨fun _ p hp => absurd hp not_mem_nil, fun m hm => ?_⟩
    cases hm
  | append_singleton ps p ih =>
    have hmem : ∀ {P : BlockId → Prop}, (∀ q ∈ ps ++ [p], P q) ↔ (∀ q ∈ ps, P q) ∧ P p := by
      intro P
      simp [or_imp, forall_and]
    obtain ⟨ihnone, ihsome⟩ := ih
    unfold ofPreds at ihnone ihsome ⊢
    rw [foldl_append, foldl_cons, foldl_nil]
    generalize List.foldl _ none ps = n at ihnone ihsome ⊢
    cases hp : d.idom p with
    | none =>
      dsimp only
      refine ⟨fun hn => hmem.2 ⟨ihnone hn, hp⟩, fun m hm => ?_⟩
      obtain ⟨h₁, ⟨q, hq, hqk⟩, h₃⟩ := ihsome m hm
      refine ⟨hmem.2 ⟨h₁, fun h => by rw [hp] at h; cases h⟩,
        ⟨q, mem_append_left _ hq, hqk⟩, fun x hx => h₃ x (hmem.1 hx).1⟩
    | some i =>
      have hpk : (d.idom p).isSome := by rw [hp]; rfl
      cases n with
      | none =>
        dsimp only
        refine ⟨fun h => (by cases h), fun m hm => ?_⟩
        cases hm
        refine ⟨hmem.2 ⟨fun q hq hqk => ?_, fun _ => .refl p⟩,
          ⟨p, mem_append_right _ (.head _), hpk⟩, fun x hx => (hmem.1 hx).2 hpk⟩
        rw [ihnone rfl q hq] at hqk
        cases hqk
      | some n =>
        dsimp only
        refine ⟨fun h => (by cases h), fun m hm => ?_⟩
        obtain ⟨h₁, ⟨q, hq, hqk⟩, h₃⟩ := ihsome n rfl
        have hnk : (d.idom n).isSome := hd.isSome_of_above (h₁ q hq hqk) hqk
        obtain ⟨-, hm₁, hm₂, hm₃⟩ := hd.meet_spec hentry hpk hnk (hd.place_add_le hpk hnk)
        cases hm
        refine ⟨hmem.2 ⟨fun r hr hrk => hm₂.trans (h₁ r hr hrk), fun _ => hm₁⟩,
          ⟨p, mem_append_right _ (.head _), hpk⟩, fun x hx => ?_⟩
        exact hm₃ x ((hmem.1 hx).2 hpk) (h₃ x (hmem.1 hx).1)

/-- What is on a chain is on the ways that its entries are on. -/
theorem not_dodges_of_above (h : d.Above x b)
    (hchain : ∀ c i, d.Above c b → c ≠ f.entry → d.idom c = some i → ¬f.Dodges i k c) :
    ¬f.Dodges x k b := by
  induction h with
  | refl => exact dominates_self k
  | @up b c hc _ ih =>
    have hc' := ih fun e i he => hchain e i (he.trans (.up hc (.refl c)))
    intro hdodge
    by_cases hb : b = f.entry
    · subst hb
      rw [hd.entry] at hc
      exact hc' (some.inj hc ▸ hdodge)
    · rcases hdodge.split c with hsplit | hsplit
      · exact hchain b c (.refl b) hb hc hsplit
      · exact hc' hsplit

/-- A block has one closest dominator. -/
theorem eq_of_placed (hi : Placed f c i) (hm : Placed f c m) (hik : (d.idom i).isSome)
    (hmk : (d.idom m).isSome) (hic : f.Dominates i c) (hmc : f.Dominates m c) : i = m := by
  have hne : ∀ {j}, Placed f c j → j ≠ c := fun hj he => absurd (he ▸ hj.earlier) (lt_irrefl _)
  have him := hd.place_le (hd.above_of_dominates hmk (hm.strict i hic (hne hi)))
  have hmi := hd.place_le (hd.above_of_dominates hik (hi.strict m hmc (hne hm)))
  exact place_inj (hd.known i hik) (him.antisymm hmi)

end Rooted

-- ======== passes

/-- How far a block has come: it has no entry, or one that is on all ways with
fewer than so many edges that go back. -/
def Level (f : Func) (d : Dominators) : Nat → BlockId → Prop
  | 0, b => d.idom b = none
  | k + 1, b => ∃ i, d.idom b = some i ∧ ¬f.Dodges i k b

theorem Level.isSome (h : Level f d (k + 1) b) : (d.idom b).isSome := by
  obtain ⟨i, hi, -⟩ := h
  rw [hi]
  rfl

theorem Level.not_dodges (h : Level f d (k + 1) b) (hi : d.idom b = some i) : ¬f.Dodges i k b := by
  obtain ⟨j, hj, hdodge⟩ := h
  rw [hi] at hj
  rwa [some.inj hj]

theorem Rooted.isSome_of_level (hd : Rooted f d) (h : b ≠ f.entry → Level f d (k + 1) b) :
    (d.idom b).isSome := by
  by_cases hne : b = f.entry
  · rw [hne, hd.entry]
    rfl
  · exact (h hne).isSome

/-- The graph has an entry, and blocks carry the numbers of their places. -/
structure Numbered (f : Func) : Prop where
  entry : f.entry < f.blocks.size
  id : f.Keyed

theorem mem_of_dodges (hf : Numbered f) (h : f.Dodges a k b) (hb : b < f.blocks.size) :
    b ∈ f.reversePostorder := by
  refine (mem_reversePostorder_iff hf.entry).2 ⟨?_, hb⟩
  clear hb
  induction h with
  | entry => exact .entry
  | forward _ hc _ _ ih => exact .edge ih hc
  | back _ hc _ ih => exact .edge ih hc

/-- The state of a pass: the blocks in front have been looked at. -/
structure Passing (f : Func) (k : Nat) (front rest : List BlockId) (d : Dominators) : Prop where
  rooted : Rooted f d
  order : f.reversePostorder = front ++ rest
  entry : f.entry ∈ front
  front : ∀ b ∈ front, b ≠ f.entry → Level f d (k + 1) b
  rest : ∀ b ∈ rest, Level f d k b

namespace Passing

variable {front rest : List BlockId}

theorem isSome_front (h : Passing f k front rest d) (hb : b ∈ front) : (d.idom b).isSome :=
  h.rooted.isSome_of_level (h.front b hb)

theorem mem (h : Passing f k front (c :: rest) d) : c ∈ f.reversePostorder := by
  rw [h.order]
  exact mem_append_right _ (.head _)

theorem ne_entry (h : Passing f k front (c :: rest) d) : c ≠ f.entry := by
  rintro rfl
  have hnd := nodup_reversePostorder f
  rw [h.order] at hnd
  exact (nodup_append.1 hnd).2.2 _ h.entry _ (.head _) rfl

/-- What is on the chains of all known blocks that lead to the next block is on
the ways to it, as far as the pass is concerned: an edge that goes on comes
from a block that has been looked at, and one that goes back takes one from the
number of those. -/
theorem not_dodges (hf : Numbered f) (h : Passing f k front (c :: rest) d)
    (habove : ∀ p, c ∈ f.successors p → (d.idom p).isSome → d.Above m p) : ¬f.Dodges m k c := by
  intro hdodge
  cases hdodge with
  | entry => exact h.ne_entry rfl
  | @forward _ p _ hp hcp hlt _ =>
    have hfront := mem_of_place_lt h.order hlt
    refine h.rooted.not_dodges_of_above (habove p hcp (h.isSome_front hfront))
      (fun e i he hne hi => ?_) hp
    have hle := h.rooted.place_le he
    exact (h.front e (mem_of_place_lt h.order (by omega)) hne).not_dodges hi
  | @back k p _ hp hcp _ =>
    have hlevel : ∀ e ∈ f.reversePostorder, e ≠ f.entry → Level f d (k + 1) e := by
      intro e he hne
      rw [h.order] at he
      rcases mem_append.1 he with he | he
      · obtain ⟨i, hi, hdodge⟩ := h.front e he hne
        exact ⟨i, hi, fun hk => hdodge (hk.mono (Nat.le_succ k))⟩
      · exact h.rest e he
    have hpk := h.rooted.isSome_of_level
      (hlevel p (mem_of_dodges hf hp (lt_of_mem_successors hcp)))
    refine h.rooted.not_dodges_of_above (habove p hcp hpk) (fun e i he hne hi => ?_) hp
    have hek := h.rooted.isSome_of_above he hpk
    exact (hlevel e (h.rooted.known e hek) hne).not_dodges hi

/-- The meeting point of the known blocks that lead to the next block is an
entry for it. -/
theorem placed (h : Passing f k front (c :: rest) d)
    (habove : ∀ p, c ∈ f.successors p → (d.idom p).isSome → d.Above m p)
    (hdeepest : ∀ x, (∀ p, c ∈ f.successors p → (d.idom p).isSome → d.Above x p) → d.Above x m) :
    Placed f c m ∧ (d.idom m).isSome := by
  have hd := h.rooted
  obtain ⟨p, -, hcp, hlt⟩ := exists_earlier h.mem h.ne_entry
  have hpk := h.isSome_front (mem_of_place_lt h.order hlt)
  have hmp := habove p hcp hpk
  have hmk := hd.isSome_of_above hmp hpk
  have hearlier : f.place m < f.place c := (hd.place_le hmp).trans_lt hlt
  have hway := (hd.way_of_above hmp).tail ⟨hcp, hearlier.le⟩
  refine ⟨⟨hearlier, hway, fun a ha hac => ?_⟩, hmk⟩
  -- a dominator of the block dominates what leads to it, so it is on all chains
  have ham : d.Above a m := by
    refine hdeepest a fun q hcq hqk => hd.above_of_dominates hqk fun j hj => ?_
    exact ha (j + 1) (.back hj hcq (Ne.symm hac))
  by_cases hne : a = m
  · rw [hne]
    exact dominates_self
  · -- a way around it to the meeting point could be continued to the block
    intro j hj
    have hak := hd.known a (hd.isSome_of_above ham hmk)
    have hplace : f.place a < f.place m :=
      lt_of_le_of_ne (hd.place_le ham) fun heq => hne (place_inj hak heq)
    have hround : ∀ q r, r ∈ f.successors q ∧ f.place m ≤ f.place r →
        r ∈ f.successors q ∧ r ≠ a := by
      rintro q r ⟨hr, hle⟩
      refine ⟨hr, ?_⟩
      rintro rfl
      exact absurd hle (not_le.2 hplace)
    obtain ⟨l, hl⟩ := hj.append (Relation.ReflTransGen.mono hround _ _ hway)
    exact ha l hl

/-- There is a meeting point, and it is an entry for the next block. -/
theorem exists_entry (hf : Numbered f) (h : Passing f k front (c :: rest) d) :
    ∃ m, d.ofPreds f.places (f.preds c) = some m ∧ Placed f c m ∧
      (d.idom m).isSome ∧ ¬f.Dodges m k c := by
  obtain ⟨hnone, hsome⟩ := h.rooted.ofPreds_spec hf.entry (f.preds c)
  obtain ⟨m, hm⟩ : ∃ m, d.ofPreds f.places (f.preds c) = some m := by
    obtain ⟨p, -, hcp, hlt⟩ := exists_earlier h.mem h.ne_entry
    refine ne_none_iff_exists'.1 fun hno => ?_
    have hpk := h.isSome_front (mem_of_place_lt h.order hlt)
    rw [hnone hno p ((mem_preds_iff hf.id).2 hcp)] at hpk
    cases hpk
  obtain ⟨hm₁, -, hm₂⟩ := hsome m hm
  simp only [mem_preds_iff hf.id] at hm₁ hm₂
  obtain ⟨hplaced, hmk⟩ := h.placed hm₁ hm₂
  exact ⟨m, hm, hplaced, hmk, h.not_dodges hf hm₁⟩

/-- Once edges that go back are not missing any more, the next block has its
entry. -/
theorem ofPreds_eq (hf : Numbered f) (hk : f.blocks.size < k)
    (h : Passing f k front (c :: rest) d) : d.ofPreds f.places (f.preds c) = d.idom c := by
  have hd := h.rooted
  have hc : c < f.blocks.size := lt_of_mem_postorder (mem_reversePostorder.1 h.mem)
  have hdom : ∀ {j l}, f.blocks.size ≤ l → ¬f.Dodges j l c → f.Dominates j c :=
    fun hl hno l' hl' => hno ((hl'.bounded hc).mono hl)
  obtain ⟨m, hm, hplaced, hmk, hmc⟩ := h.exists_entry hf
  have hlevel := h.rest c (.head _)
  obtain ⟨j, rfl⟩ : ∃ j, k = j + 1 := ⟨k - 1, by omega⟩
  obtain ⟨i, hi, hic⟩ := hlevel
  have himk : i = m := hd.eq_of_placed (hd.placed c i h.ne_entry hi) hplaced (hd.up c i hi) hmk
    (hdom (by omega) hic) (hdom (by omega) hmc)
  rw [hm, hi, himk]

/-- Looking at the next block. -/
theorem next (hf : Numbered f) (h : Passing f k front (c :: rest) d) {d' : Dominators}
    (hsize : d'.size = d.size) (hd' : ∀ b, d'.idom b = if b = c then
      d.ofPreds f.places (f.preds c) else d.idom b) : Passing f k (front ++ [c]) rest d' := by
  have hd := h.rooted
  have hnd := nodup_reversePostorder f
  rw [h.order] at hnd
  have hfront : ∀ b ∈ front, b ≠ c := fun b hb hbc =>
    (nodup_append.1 hnd).2.2 b hb c (.head _) hbc
  have hrest : ∀ b ∈ rest, b ≠ c := by
    rintro b hb rfl
    exact (nodup_cons.1 (nodup_append.1 hnd).2.1).1 hb
  obtain ⟨m, hm, hplaced, hmk, hmc⟩ := h.exists_entry hf
  have hsame : ∀ b, b ≠ c → d'.idom b = d.idom b := fun b hb => by rw [hd', if_neg hb]
  have hnew : d'.idom c = some m := by rw [hd', if_pos rfl, hm]
  have hkeeps : ∀ b, (d.idom b).isSome → (d'.idom b).isSome := by
    intro b hb
    by_cases hbc : b = c
    · rw [hbc, hnew]
      rfl
    · rwa [hsame b hbc]
  have hlevel : ∀ {j b}, b ≠ c → Level f d j b → Level f d' j b := by
    intro j b hbc hj
    cases j with
    | zero => exact (hsame b hbc).trans hj
    | succ j =>
      obtain ⟨i, hi, hdodge⟩ := hj
      exact ⟨i, (hsame b hbc).trans hi, hdodge⟩
  refine ⟨⟨hsize.trans hd.size, ?_, fun b hb => ?_, fun b i hi => ?_, fun b i hne hi => ?_⟩,
    by rw [h.order, append_assoc, singleton_append], mem_append_left _ h.entry,
    fun b hb hne => ?_, fun b hb => hlevel (hrest b hb) (h.rest b (mem_cons_of_mem c hb))⟩
  · rw [hsame _ (Ne.symm h.ne_entry), hd.entry]
  · by_cases hbc : b = c
    · exact hbc ▸ h.mem
    · exact hd.known b (by rwa [hsame b hbc] at hb)
  · by_cases hbc : b = c
    · rw [hbc, hnew] at hi
      exact hkeeps i (some.inj hi ▸ hmk)
    · exact hkeeps i (hd.up b i (by rwa [hsame b hbc] at hi))
  · by_cases hbc : b = c
    · rw [hbc, hnew] at hi
      rw [hbc, ← some.inj hi]
      exact hplaced
    · exact hd.placed b i hne (by rwa [hsame b hbc] at hi)
  · rcases mem_append.1 hb with hb | hb
    · exact hlevel (hfront b hb) (h.front b hb hne)
    · rw [mem_singleton.1 hb]
      exact ⟨m, hnew, hmc⟩

end Passing

/-- Changing an entry. -/
theorem idom_setIfInBounds {o : Option BlockId} (hc : c < d.size) :
    Dominators.idom (d.setIfInBounds c o) b = if b = c then o else d.idom b :=
  getD_setIfInBounds hc b

/-- Every block that can be reached has come so far. -/
structure Settled (f : Func) (k : Nat) (d : Dominators) : Prop where
  rooted : Rooted f d
  level : ∀ b ∈ f.reversePostorder, b ≠ f.entry → Level f d k b

/-- A pass brings every block one level further; one that changes nothing has
nothing to change, and that is so at the latest when edges that go back are not
missing any more. -/
theorem Settled.pass (hf : Numbered f) (h : Settled f k d) : Settled f (k + 1)
      (d.pass f f.places f.later).1 ∧ Sweeps f f.places f.later (d, false)
      (d.pass f f.places f.later) ∧ (f.blocks.size < k → (d.pass f f.places f.later).2 = false) ∧
    ((d.pass f f.places f.later).2 = false → (d.pass f f.places f.later).1 = d) := by
  have hfold : ∀ (rest front : List BlockId) (d : Dominators) (changed : Bool),
      Passing f k front rest d →
      ∃ d' changed', rest.foldl (fun (x : Dominators × Bool) b =>
          if x.1.ofPreds f.places (f.preds b) = x.1.idom b then (x.1, x.2)
          else (x.1.setIfInBounds b (x.1.ofPreds f.places (f.preds b)), true))
          (d, changed) = (d', changed') ∧
        Passing f k (front ++ rest) [] d' ∧
        Sweeps f f.places rest (d, changed) (d', changed') ∧
        (f.blocks.size < k → changed' = changed) ∧
        (changed' = false → changed = false ∧ d' = d) := by
    intro rest
    induction rest with
    | nil =>
      intro front d changed h
      exact ⟨d, changed, rfl, by rwa [append_nil], .nil _, fun _ => rfl,
        fun hc => ⟨hc, rfl⟩⟩
    | cons c rest ih =>
      intro front d changed h
      have hc : c < d.size := by
        rw [h.rooted.size]
        exact lt_of_mem_postorder (mem_reversePostorder.1 h.mem)
      rw [foldl_cons]
      have hgathers := h.rooted.gathers_ofPreds hf.entry (f.preds c)
      by_cases hsame : d.ofPreds f.places (f.preds c) = d.idom c
      · rw [if_pos hsame]
        have hnext : Passing f k (front ++ [c]) rest d := h.next hf rfl fun b => by
          split
          · next hb => rw [hb, hsame]
          · rfl
        obtain ⟨d', changed', hres, hd', hsweep, hch⟩ := ih (front ++ [c]) d changed hnext
        rw [hsame] at hgathers
        exact ⟨d', changed', hres, by simpa using hd', .same hgathers hsweep, hch⟩
      · rw [if_neg hsame]
        have hnext := h.next hf (by simp) fun b => idom_setIfInBounds hc
        obtain ⟨d', changed', hres, hd', hsweep, -, hch⟩ := ih (front ++ [c]) _ true hnext
        exact ⟨d', changed', hres, by simpa using hd', .new hgathers hsame hsweep,
          fun hk => absurd (h.ofPreds_eq hf hk) hsame, fun hf => absurd (hch hf).1 (by simp)⟩
  have hcons := reversePostorder_eq_cons hf.entry
  have hnd := nodup_reversePostorder f
  have hstart : Passing f k [f.entry] (f.reversePostorder.drop 1) d := by
    refine ⟨h.rooted, hcons, mem_singleton.2 rfl, fun b hb hne => ?_, fun b hb => ?_⟩
    · exact absurd (mem_singleton.1 hb) hne
    · refine h.level b (mem_of_mem_drop hb) ?_
      rintro rfl
      rw [hcons] at hnd
      exact (nodup_cons.1 hnd).1 hb
  obtain ⟨d', changed', hres, hd', hsweep, hstable, hch⟩ := hfold _ _ d false hstart
  unfold Dominators.pass
  rw [hres]
  refine ⟨⟨hd'.rooted, fun b hb hne => hd'.front b ?_ hne⟩, hsweep, hstable,
    fun hf => (hch hf).2⟩
  rwa [singleton_append, ← hcons]

/-- Passes until nothing changes are as good as all of them. -/
theorem Settled.settle (hf : Numbered f) (rounds : Nat) (h : Settled f k d) : Settled f (k + rounds)
      (d.settle f f.places f.later rounds) := by
  induction rounds generalizing k d with
  | zero => exact h
  | succ rounds ih =>
    obtain ⟨hpass, -, -, hsame⟩ := h.pass hf
    unfold Dominators.settle
    dsimp only
    by_cases hch : (d.pass f f.places f.later).2 = true
    · rw [if_pos hch, add_comm rounds 1, ← add_assoc]
      exact ih hpass
    · rw [if_neg hch]
      have hfix := hsame (by simpa using hch)
      -- nothing changes, so that every further pass gives the same
      have hall : ∀ j, Settled f (k + j) d := by
        intro j
        induction j with
        | zero => exact h
        | succ j ihj =>
          have hj := (ihj.pass hf).1
          rwa [hfix] at hj
      rw [hfix]
      exact hall (rounds + 1)

/-- Enough passes are all there are. -/
theorem Settled.settles (hf : Numbered f) {rounds : Nat} (h : Settled f k d)
    (hrounds : f.blocks.size + 1 < k + rounds) : Settles f f.places f.later d
      (d.settle f f.places f.later rounds) := by
  induction rounds generalizing k d with
  | zero =>
    obtain ⟨-, hsweep, hstable, hsame⟩ := h.pass hf
    have hend := hstable (by omega)
    have hpass : d.pass f f.places f.later = (d, false) := Prod.ext (hsame hend) hend
    rw [hpass] at hsweep
    exact .done hsweep
  | succ rounds ih =>
    obtain ⟨hpass, hsweep, -, -⟩ := h.pass hf
    unfold Dominators.settle
    cases hres : d.pass f f.places f.later with
    | mk d' changed =>
      rw [hres] at hpass hsweep
      cases changed with
      | true => exact .again hsweep (ih hpass (by omega))
      | false => exact .done hsweep

end Dominators

-- ======== dominators

namespace Func

open Dominators

variable {f : Func} {a b : BlockId}

/-- What the passes start with: only the entry is known. -/
theorem settled_start (hf : Numbered f) :
    Settled f 0 ((Array.replicate f.blocks.size none).setIfInBounds f.entry (some f.entry)) := by
  set start : Dominators :=
    (Array.replicate f.blocks.size none).setIfInBounds f.entry (some f.entry) with hstart
  have hidom : ∀ b, start.idom b = if b = f.entry then some f.entry else none := by
    intro b
    have hreplicate : Dominators.idom (Array.replicate f.blocks.size none) b = none :=
      getD_of_replicate _ _ b
    rw [hstart, idom_setIfInBounds (by rw [Array.size_replicate]; exact hf.entry), hreplicate]
  refine ⟨⟨by simp [hstart], by rw [hidom, if_pos rfl], fun b hb => ?_, fun b i hi => ?_,
    fun b i hne hi => ?_⟩, fun b hb hne => ?_⟩
  · rw [hidom] at hb
    split at hb
    · next he =>
      rw [he]
      exact mem_reversePostorder.2 (entry_mem_postorder hf.entry)
    · cases hb
  · rw [hidom] at hi
    split at hi
    · rw [← some.inj hi, hidom, if_pos rfl]
      rfl
    · cases hi
  · rw [hidom, if_neg hne] at hi
    cases hi
  · show start.idom b = none
    rw [hidom, if_neg hne]

/-- The dominators of a function, level by level. -/
theorem settled_dominators (hf : Numbered f) :
    Settled f (f.blocks.size * f.blocks.size + 1) f.dominators := by
  have hall := (settled_start hf).settle hf (f.blocks.size * f.blocks.size + 1)
  rwa [zero_add] at hall

/-- Exactly the blocks that can be reached have a dominator. -/
theorem isReachable_iff (hf : Numbered f) :
    f.dominators.isReachable b = true ↔ f.Reachable b ∧ b < f.blocks.size := by
  have hd := settled_dominators hf
  unfold isReachable
  rw [← mem_reversePostorder_iff hf.entry]
  exact ⟨hd.rooted.known b, fun hb => hd.rooted.isSome_of_level (hd.level b hb)⟩

/-- A chain that is followed far enough. -/
theorem dominatesWithin_iff {d : Dominators} (hd : Rooted f d) {steps : Nat}
    (hsteps : f.place b ≤ steps) (hentry : f.entry < f.blocks.size) (hb : (d.idom b).isSome) :
    d.dominatesWithin a steps b = true ↔ d.Above a b := by
  induction steps generalizing b with
  | zero =>
    have hbe : b = f.entry := place_inj (hd.known b hb) (by rw [place_entry hentry]; omega)
    unfold dominatesWithin
    rw [decide_eq_true_eq]
    constructor
    · rintro rfl
      exact .refl b
    · intro h
      refine (place_inj (hd.known a (hd.isSome_of_above h hb)) ?_).symm
      have := hd.place_le h
      omega
  | succ steps ih =>
    unfold dominatesWithin
    by_cases hba : b = a
    · rw [if_pos hba, hba]
      exact ⟨fun _ => .refl a, fun _ => rfl⟩
    rw [if_neg hba]
    obtain ⟨i, hi⟩ := isSome_iff_exists.1 hb
    rw [hi]
    dsimp only
    by_cases hib : i = b
    · -- the chain ends here, at the entry
      rw [if_pos hib]
      have hbe : b = f.entry := by
        by_contra hne
        have := (hd.placed b i hne hi).earlier
        rw [hib] at this
        exact lt_irrefl _ this
      refine ⟨fun h => (by cases h), fun h => ?_⟩
      have hle := hd.place_le h
      rw [hbe, place_entry hentry] at hle
      have hae : a = f.entry := place_inj (hd.known a (hd.isSome_of_above h hb))
        (by rw [place_entry hentry]; omega)
      exact absurd (hbe.trans hae.symm) hba
    · rw [if_neg hib]
      have hne : b ≠ f.entry := by
        rintro rfl
        rw [hd.entry] at hi
        exact hib (some.inj hi).symm
      have hlt := (hd.placed b i hne hi).earlier
      rw [ih (by omega) (hd.up b i hi)]
      exact ⟨.up hi, fun h => h.of_ne (Ne.symm hba) hi⟩

/-- A block that can be reached is dominated by exactly the blocks that every
way to it passes. -/
theorem dominates_iff (hf : Numbered f) (hb : f.Reachable b) (hlt : b < f.blocks.size) :
    f.dominators.dominates a b = true ↔ f.Dominates a b := by
  have hd := settled_dominators hf
  have hbk : (f.dominators.idom b).isSome := (isReachable_iff hf).2 ⟨hb, hlt⟩
  have hsteps : f.place b ≤ f.dominators.size := by
    rw [hd.rooted.size]
    exact (place_lt (hd.rooted.known b hbk)).le
  have hwithin : f.dominators.dominatesWithin a f.dominators.size b = true ↔
      f.dominators.Above a b := dominatesWithin_iff hd.rooted hsteps hf.entry hbk
  unfold dominates
  rw [Bool.and_eq_true, Bool.and_eq_true, hwithin]
  constructor
  · rintro ⟨-, h⟩ k hk
    -- a way around could be taken with few edges that go back
    have hsize : f.blocks.size ≤ f.blocks.size * f.blocks.size :=
      Nat.le_mul_of_pos_left _ (Nat.zero_lt_of_lt hf.entry)
    refine hd.rooted.not_dodges_of_above h (fun c i hc hne hi => ?_)
      ((hk.bounded hlt).mono hsize)
    have hck := hd.rooted.isSome_of_above hc hbk
    exact (hd.level c (hd.rooted.known c hck) hne).not_dodges hi
  · intro h
    have habove := hd.rooted.above_of_dominates hbk h
    exact ⟨⟨hd.rooted.isSome_of_above habove hbk, hbk⟩, habove⟩

end Func

end RefCount.Ir
