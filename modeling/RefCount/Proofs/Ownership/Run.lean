/-
Functions that follow plans run safely and mean what they mean without counts.
Every run of the machine goes along with a run on trees, step by step: the
frames are at the same places, and what may be looked at denotes the tree that
the other frame has for it. So no object is used after it was freed, and a
result denotes the tree that the other run ends with.

# What is held

The references that count are those that were held before the call by others
(`A₀`), those that the variables of all frames own, and the arguments of
closures that have still to be released. Each frame rests on what its callers
hold: `Waits` adds that up from the outermost caller to the innermost one. The
counts of the heap are exact for the sum, and a step that gives something up
only frees what nobody reaches any more.

# What is asked of the other run

A plan takes it for granted that variables that are not counted hold no
references, and the heap has to be asked for texts and closures that are
there. Both are matters of types, which the run on trees keeps; here they are
asked of it at every step (`Fine`).
-/
import Mathlib
import RefCount.Proofs.Ownership.Calls

namespace RefCount.Ownership

open Ir List Option
open Machine
open Machine.Value (refsAll)

variable {env : Env} {r : Func → Roles} {S : Func → Plan} {A₀ : Multiset Address}
variable {G : Plain.Config → Prop}

-- ======== callers

/-- What a caller has still to release when a result comes: the arguments of a
closure that its function borrows. The closure is there until then. -/
def Pending (h : Heap) (B pend : Multiset Address) : Option Indirect → Prop
  | none => pend = 0
  | some c => ∃ modes o, c.modes = Option.getD modes [] ∧ h.Reach B c.closure ∧
    h.obj? c.closure = some o ∧ pend = refsAll (lent modes o.fields.length c.args)

/-- What a frame has ahead of it follows its plan. -/
abbrev Heads (env : Env) (r : Func → Roles) (S : Func → Plan) (fr : Frame) (σ : Holding) : Prop :=
  Ahead env.sigs (r fr.func) (S fr.func) fr.func fr.block.term fr.code σ

/-- Callers that wait for results, and what they hold together. -/
inductive Waits (env : Env) (r : Func → Roles) (S : Func → Plan) (A₀ : Multiset Address)
    (h : Heap) :
    Multiset Address → List (Frame × Await) → List (Plain.Frame × Var) → Prop
  | nil : Waits env r S A₀ h A₀ [] []
  | cons {A pend : Multiset Address} {σ : Holding} {fr : Frame} {pf : Plain.Frame}
      {aw : Await} {cs : List (Frame × Await)} {pcs : List (Plain.Frame × Var)}
      (hrest : Waits env r S A₀ h A cs pcs)
      (hplan : Follows env.sigs (r fr.func) (S fr.func) fr.func)
      (hm : Matches env.pool (r fr.func) h A σ fr pf)
      (hdst : σ.Fresh (r fr.func) aw.dst)
      (hahead : Heads env r S fr (σ.gain (r fr.func) aw.dst))
      (hpend : Pending h (A + roots σ fr) pend aw.indirect) :
      Waits env r S A₀ h (A + roots σ fr + pend) ((fr, aw) :: cs) ((pf, aw.dst) :: pcs)

theorem Pending.keeps {h h' : Heap} {B pend : Multiset Address} {i : Option Indirect}
    (hp : Pending h B pend i) (hk : Heap.Keeps B h h') : Pending h' B pend i := by
  cases i with
  | none => exact hp
  | some c =>
    obtain ⟨modes, o, hmodes, hreach, ho, hpend⟩ := hp
    exact ⟨modes, o, hmodes, hreach.keeps hk, by rw [hk _ hreach, ho], hpend⟩

/-- The heap may change as long as what callers hold stays. -/
theorem Waits.keeps {h h' : Heap} {A : Multiset Address} {cs : List (Frame × Await)}
    {pcs : List (Plain.Frame × Var)} (hw : Waits env r S A₀ h A cs pcs)
    (hk : Heap.Keeps A h h') : Waits env r S A₀ h' A cs pcs := by
  induction hw with
  | nil => exact .nil
  | @cons A pend σ fr pf aw cs pcs hrest hplan hm hdst hahead hpend ih =>
    have hk' : Heap.Keeps (A + roots σ fr) h h' := hk.mono (Multiset.le_add_right _ _)
    exact .cons (ih (hk'.mono (Multiset.le_add_right _ _))) hplan (hm.keeps hk') hdst hahead
      (hpend.keeps hk')

-- ======== configurations

/-- The frame on top with its callers, wherever it is in its code. -/
structure Stands (env : Env) (r : Func → Roles) (S : Func → Plan) (A₀ : Multiset Address)
    (h : Heap) (A : Multiset Address) (σ : Holding) (fr : Frame) (pf : Plain.Frame)
    (cs : List (Frame × Await)) (pcs : List (Plain.Frame × Var)) : Prop where
  waits : Waits env r S A₀ h A cs pcs
  plan : Follows env.sigs (r fr.func) (S fr.func) fr.func
  same : Matches env.pool (r fr.func) h A σ fr pf

/-- A run of the machine and the run without counts that goes along with
it. -/
def Related (env : Env) (r : Func → Roles) (S : Func → Plan) (A₀ : Multiset Address)
    (h : Heap) (c : Config) (pc : Plain.Config) : Prop :=
  ∃ A σ, Stands env r S A₀ h A σ c.top pc.top c.callers pc.callers ∧
    h.Exact (A + roots σ c.top) ∧
    Heads env r S c.top σ

/-- What a step leads to, and what it leads to without counts. -/
inductive Goes (env : Env) (r : Func → Roles) (S : Func → Plan) (A₀ : Multiset Address)
    (w : World) : Progress → Plain.Progress → Prop
  | running {c : Config} {pc : Plain.Config} (h : Related env r S A₀ w.heap c pc) :
      Goes env r S A₀ w (.running c) (.running pc)
  | finished {v : Value} (hx : w.heap.Exact (A₀ + v.refs)) :
      Goes env r S A₀ w (.finished v) (.finished (treeOf env.pool w.heap v))

/-- What a plan takes for granted of a run without counts. -/
structure Fine (env : Env) (r : Func → Roles) (pc : Plain.Config) : Prop where
  bare : Bares (r pc.top.func) pc.top
  asks : ∀ x rest, pc.top.code = x :: rest →
    Plain.Asks (.standard env.pool env.funcs) { pc.top with code := rest } x
  term : ∀ t, pc.top.code = [] → pc.top.block.term = some t → Plain.TermAsks pc.top t

-- ======== assignments

section Assign

variable {w w' : World} {A : Multiset Address} {σ : Holding} {fr : Frame}
  {pf : Plain.Frame} {cs : List (Frame × Await)} {pcs : List (Plain.Frame × Var)}
variable {dst : Var} {v : Value}

/-- What is not counted and is there holds nothing. -/
theorem refs_of_assigned {roles : Roles} {R : Multiset Address}
    (hbare : Bares roles (pf.assign dst (treeOf env.pool w.heap v)))
    (hx : w.heap.Exact (R + v.refs)) (hc : roles.counted dst = false) : v.refs = 0 := by
  have htree : (treeOf env.pool w.heap v).Bare := hbare dst _ hc (by simp [Plain.Frame.assign])
  refine refs_of_bare v (fun p hp => ?_) htree
  exact hx.live_of_mem (Multiset.mem_add.2 (.inr hp))

/-- A variable is assigned what an operation has given to own. -/
theorem Stands.gain {h : Heap} (hs : Stands env r S A₀ h A σ fr pf cs pcs) {t : Machine.Tree}
    (hdst : σ.Fresh (r fr.func) dst) (hahead : Heads env r S fr (σ.gain (r fr.func) dst))
    (hy : Yields env.pool (A + roots σ fr) h (some t) v w)
    (hbare : Bares (r fr.func) (pf.assign dst t)) : Safe (fr.set dst v) w fun fr' w' => w' = w ∧
      Related env r S A₀ w.heap ⟨fr', cs⟩ ⟨pf.assign dst t, pcs⟩ := by
  obtain ⟨hx, hk, ht⟩ := hy
  cases ht
  refine Safe.set fun hsize => ⟨rfl, A, σ.gain (r fr.func) dst, ?_⟩
  obtain ⟨hm, hroots⟩ := (hs.same.keeps hk).gain hsize hdst (refs_of_assigned hbare hx) rfl
  refine ⟨⟨hs.waits.keeps (hk.mono (Multiset.le_add_right A _)), hs.plan, hm⟩, ?_, hahead⟩
  have hsum : A + roots (σ.gain (r fr.func) dst) (assigned fr dst v) =
      A + roots σ fr + v.refs := by
    rw [hroots]
    abel
  show w.heap.Exact (A + roots (σ.gain (r fr.func) dst) (assigned fr dst v))
  rw [hsum]
  exact hx

end Assign

-- ======== calls

section Calls

variable {w : World} {h : Heap} {A pend : Multiset Address} {σ : Holding} {fr : Frame}
  {pf : Plain.Frame} {cs : List (Frame × Await)} {pcs : List (Plain.Frame × Var)}
  {aw : Await}

/-- A caller that has what it waited for releases what it has still to
release. -/
theorem deliver_safe (hdrops : env.drops = none) {v : Value} {t : Machine.Tree}
    (hpend : Pending h (A + roots σ fr) pend aw.indirect)
    (hy : Yields env.pool (A + roots σ fr + pend) h (some t) v w) {Q : Frame → World → Prop}
    (hQ : ∀ w', Yields env.pool (A + roots σ fr) h (some t) v w' →
      Safe (fr.set aw.dst v) w' Q) : Safe (deliver env fr aw v) w Q := by
  obtain ⟨hx, hk, ht⟩ := hy
  unfold deliver
  cases hi : aw.indirect with
  | none =>
    rw [hi] at hpend
    obtain rfl : pend = 0 := hpend
    rw [add_zero] at hx hk
    exact hQ w ⟨hx, hk, ht⟩
  | some c =>
    rw [hi] at hpend
    have hkB := hk.mono (Multiset.le_add_right (A + roots σ fr) pend)
    obtain ⟨modes, o, hmodes, hreach, ho, rfl⟩ := hpend.keeps hkB
    have hx' : w.heap.Exact (refsAll (lent modes (o.fields.length + 0) c.args) +
        (A + roots σ fr + v.refs)) := by
      rw [add_zero, ← add_assoc, add_comm (refsAll _)]
      exact hx
    have hreach' := hreach.mono (Multiset.le_add_right (A + roots σ fr) v.refs)
    have hrel := releaseIndirect_safe hdrops hx' hreach' ⟨o, ho, rfl⟩
    rw [← hmodes] at hrel
    refine .bind (Ends.mono (x := releaseIndirect env c) hrel ?_)
    rintro _ w' ⟨hx'', hk'⟩
    refine hQ w' ⟨hx'', hkB.trans (hk'.mono (Multiset.le_add_right _ _)), ?_⟩
    rw [ht, treeOf_keeps (within_refs.mono (Multiset.le_add_left _ _)) hk']

/-- What a call leads to goes along with what it leads to without counts. -/
theorem continueWith_safe (hdrops : env.drops = none) {c : Config} {pc : Plain.Config}
    (hs : Stands env r S A₀ h A σ fr pf c.callers pc.callers) (hdst : σ.Fresh (r fr.func) aw.dst)
    (hahead : Heads env r S fr (σ.gain (r fr.func) aw.dst))
    (hpend : Pending h (A + roots σ fr) pend aw.indirect) {e : Entered} {e' : Plain.Entered}
    (he : Enters env r S (A + roots σ fr + pend) h w e e')
    (hbare : Bares (r (Plain.continueWith pc pf aw.dst e').top.func)
      (Plain.continueWith pc pf aw.dst e').top) : Safe (continueWith env c fr aw e) w fun c' w' =>
      Related env r S A₀ w'.heap c' (Plain.continueWith pc pf aw.dst e') := by
  cases he with
  | @frame callee pcallee τ hheap hx hfr =>
    subst hheap
    have hcall := Waits.cons hs.waits hs.plan hs.same hdst hahead hpend
    exact .pure ⟨_, τ, ⟨hcall, hfr.plan, hfr.same⟩, hx, hfr.ahead⟩
  | @result v t hy =>
    refine .bind (deliver_safe hdrops hpend hy fun w' hy' => ?_)
    have hfunc : (Plain.continueWith pc pf aw.dst (.result t)).top.func = fr.func := hs.same.func
    rw [hfunc] at hbare
    refine (hs.gain hdst hahead hy' hbare).mono ?_
    rintro fr' w'' ⟨rfl, hrel⟩
    exact hrel

end Calls

-- ======== instructions

section Exec

variable {w : World} {A : Multiset Address} {σ : Holding} {fr : Frame} {pf : Plain.Frame}
  {c : Config} {pc : Plain.Config}
variable {dst src v : Var} {h : Heap} {σ' : Holding} {func : String} {args : List Var}
  {ts : List Machine.Tree}

/-- An instruction that gives its variable something to own. -/
theorem on_safe {τ : Holding} {x : Run Value} {t : Option Machine.Tree}
    (hs : Stands env r S A₀ w.heap A τ fr pf c.callers pc.callers) (hdst : τ.Fresh (r fr.func) dst)
    (hahead : Heads env r S fr (τ.gain (r fr.func) dst))
    (hbare : ∀ u, t = some u → Bares (r fr.func) (pf.assign dst u))
    (hx : Safe x w (Yields env.pool (A + roots τ fr) w.heap t)) :
    Safe (do return { c with top := ← fr.set dst (← x) }) w fun c' w' => ∃ u, t = some u ∧
      Related env r S A₀ w'.heap c' { pc with top := pf.assign dst u } := by
  refine .bind (hx.mono fun v w' hy => ?_)
  obtain ⟨u, rfl⟩ : ∃ u, t = some u := ⟨_, hy.tree⟩
  refine .bind ((hs.gain hdst hahead hy (hbare u rfl)).mono ?_)
  rintro fr' w'' ⟨rfl, hrel⟩
  exact .pure ⟨u, rfl, hrel⟩

theorem Stands.spendAll (hs : Stands env r S A₀ h A σ fr pf c.callers pc.callers) (vs : List Var) :
    Stands env r S A₀ h A (σ.spendAll vs) fr pf c.callers pc.callers :=
  ⟨hs.waits, hs.plan, hs.same.spendAll vs⟩

/-- What is spent is no longer owned. -/
theorem Stands.exact_spendAll (hs : Stands env r S A₀ h A σ fr pf c.callers pc.callers)
    (hx : h.Exact (A + roots σ fr)) {vs : List Var} (hvs : σ.Covers (r fr.func) vs) :
    h.Exact (A + roots (σ.spendAll vs) fr + refsAll (fr.getAll vs)) := by
  rw [roots_spendAll hs.same.bare hvs] at hx
  rw [add_assoc, add_comm (roots _ _)]
  exact hx

/-- A variable is assigned the value of another. -/
theorem move_safe (hs : Stands env r S A₀ w.heap A σ fr pf c.callers pc.callers)
    (hx : w.heap.Exact (A + roots σ fr)) (hmove : Moves env.sigs (r fr.func) σ (.move dst src) σ')
    (hahead : Heads env r S fr σ') (hset : fr.isSet src)
    (hbare : ∀ u, pf.vars src = some u → Bares (r fr.func) (pf.assign dst u)) :
    Safe (fr.set dst (fr.get src)) w fun fr' w' => ∃ u, pf.vars src = some u ∧
      Related env r S A₀ w'.heap ⟨fr', c.callers⟩ ⟨pf.assign dst u, pc.callers⟩ := by
  cases hmove with
  | stuck hv hn =>
    obtain rfl := mem_singleton.1 hv
    rw [hs.same.never _ hn] at hset
    cases hset
  | moveAlias hsrc hdst hown hn =>
    have hval := hs.same.value (.inr (.inl hsrc)) hset
    have hwithin := hs.same.derived src hsrc
    refine Safe.set fun hsize => ⟨_, hval, A, σ.forget dst, ?_⟩
    have hrefs : (r fr.func).counted dst = false → (fr.get src).refs = 0 := by
      intro hc
      refine @refs_of_bare env.pool w.heap _ (fun p hp => ?_) ?_
      · exact hx.live_of_reach (Multiset.le_add_right A _) (hwithin p hp)
      · exact hbare _ hval dst _ hc (by simp [Plain.Frame.assign])
    obtain ⟨hm, hroots⟩ := hs.same.forget hsize hn hown hrefs hwithin rfl
    refine ⟨⟨hs.waits, hs.plan, hm⟩, ?_, hahead⟩
    show w.heap.Exact (A + roots (σ.forget dst) (assigned fr dst (fr.get src)))
    rw [hroots]
    exact hx
  | move hsrc hdst =>
    have hval := hs.same.value (readable_of_covers hsrc src (.head _)) hset
    have hy : Yields env.pool (A + roots (σ.spendAll [src]) fr) w.heap
        (some (treeOf env.pool w.heap (fr.get src))) (fr.get src) w := by
      refine ⟨?_, .refl, rfl⟩
      have := hs.exact_spendAll hx hsrc
      simpa [Frame.getAll] using this
    refine ((hs.spendAll [src]).gain hdst hahead hy (hbare _ hval)).mono ?_
    rintro fr' w' ⟨rfl, hrel⟩
    exact ⟨_, hval, hrel⟩

/-- What holds nothing has no parts that hold anything. -/
theorem refs_of_part {v u : Value} (hv : v.refs = 0) (hu : u ∈ partsOf h v) : u.refs = 0 := by
  cases v with
  | tuple elems =>
    rw [Value.refs_tuple] at hv
    rw [Multiset.eq_zero_iff_forall_notMem] at hv ⊢
    exact fun p hp => hv p (Value.mem_refsAll.2 ⟨u, hu, hp⟩)
  | ref p =>
    rw [Value.refs_ref] at hv
    exact absurd hv (Multiset.singleton_ne_zero p)
  | _ => cases hu

section

variable (hs : Stands env r S A₀ w.heap A σ fr pf c.callers pc.callers)
  (hx : w.heap.Exact (A + roots σ fr))
include hs hx

/-- A variable is assigned a field of another. -/
theorem projectFrom_safe {variant field : Int}
    (hmove : Moves env.sigs (r fr.func) σ (.project dst src variant field) σ')
    (hahead : Heads env r S fr σ') (hset : fr.isSet src)
    (hbare : ∀ t u, pf.vars src = some t → Plain.project t variant field = some u →
      Bares (r fr.func) (pf.assign dst u)) :
    Safe (do return { c with top := ← fr.set dst (← project (fr.get src) variant field) }) w
      fun c' w' => ∃ t u, pf.vars src = some t ∧ Plain.project t variant field = some u ∧
        Related env r S A₀ w'.heap c' { pc with top := pf.assign dst u } := by
  have hread : σ.Readable (r fr.func) src := by
    cases hmove with
    | stuck hv hn =>
      obtain rfl := mem_singleton.1 hv
      rw [hs.same.never _ hn] at hset
      cases hset
    | project hsrc _ _ => exact .inr (.inr (.inl hsrc.2))
    | projectAlias hsrc _ _ _ => exact .inr (.inl hsrc)
    | projectBare hsrc _ => exact .inl hsrc
  have hval := hs.same.value hread hset
  have hwithin := hs.same.within hread
  have hlive : ∀ p ∈ (fr.get src).refs, w.heap.Live p :=
    fun p hp => live_of_within hx hwithin hp
  refine .bind ((@Ownership.project_safe env.pool _ _ _ _ hlive).mono ?_)
  rintro u w' ⟨rfl, hpart, hu⟩
  have hbare' := hbare _ _ hval hu
  have hmem := mem_of_getElem? hpart
  have hrefs : (r fr.func).counted dst = false → u.refs = 0 := by
    intro hc
    refine @refs_of_bare env.pool w'.heap u (fun p hp => ?_) ?_
    · exact live_of_within hx (hwithin.part hmem) hp
    · exact hbare' dst _ hc (by simp [Plain.Frame.assign])
  refine .bind (Safe.set fun hsize => .pure ⟨_, _, hval, hu, ?_⟩)
  cases hmove with
  | stuck hv hn =>
    obtain rfl := mem_singleton.1 hv
    rw [hs.same.never _ hn] at hset
    cases hset
  | project hsrc hdst hne =>
    obtain ⟨hm, hroots⟩ := hs.same.view hsize hdst hsrc hne hrefs hpart rfl
    refine ⟨A, σ.view dst src field.toNat, ⟨hs.waits, hs.plan, hm⟩, ?_, hahead⟩
    show w'.heap.Exact (A + roots (σ.view dst src field.toNat) (assigned fr dst u))
    rw [hroots]
    exact hx
  | projectAlias hsrc hdst hown hn =>
    have hu := (hs.same.derived src hsrc).part hmem
    obtain ⟨hm, hroots⟩ := hs.same.forget hsize hn hown hrefs hu rfl
    refine ⟨A, σ.forget dst, ⟨hs.waits, hs.plan, hm⟩, ?_, hahead⟩
    show w'.heap.Exact (A + roots (σ.forget dst) (assigned fr dst u))
    rw [hroots]
    exact hx
  | projectBare hsrc hdst =>
    have hzero := refs_of_part (hs.same.bare src hsrc) hmem
    obtain ⟨hm, hroots⟩ := hs.same.gain hsize hdst hrefs rfl
    refine ⟨A, σ.gain (r fr.func) dst, ⟨hs.waits, hs.plan, hm⟩, ?_, hahead⟩
    show w'.heap.Exact (A + roots (σ.gain (r fr.func) dst) (assigned fr dst u))
    rw [hroots, hzero, zero_add]
    exact hx

/-- Taking a reference. -/
theorem inc_safe (hv : σ.Readable (r fr.func) v)
    (hahead : Heads env r S fr (σ.add v)) : Safe (retain (fr.get v)) w fun _ w' =>
      Related env r S A₀ w'.heap { c with top := fr } { pc with top := pf } := by
  have hlive : ∀ p ∈ (fr.get v).refs, w.heap.Live p :=
    fun p hp => live_of_within hx (hs.same.within hv) hp
  refine (retain_ends (fr.get v) hlive).mono fun _ w' hr => ?_
  have hk : ∀ B, Heap.Keeps B w.heap w'.heap := fun B p _ => hr.obj p
  refine ⟨A, σ.add v, ⟨hs.waits.keeps (hk A), hs.plan, (hs.same.keeps (hk _)).add hv⟩, ?_, hahead⟩
  show w'.heap.Exact (A + roots (σ.add v) fr)
  rw [roots_add, add_left_comm]
  exact hr.exact hlive hx

end

/-- Giving up a reference. -/
theorem dec_safe (hdrops : env.drops = none)
    (hs : Stands env r S A₀ w.heap A σ fr pf c.callers pc.callers)
    (hx : w.heap.Exact (A + roots σ fr)) (hv : σ.Covers (r fr.func) [v])
    (hahead : Heads env r S fr (σ.spendAll [v])) : Safe (release env (fr.get v)) w fun _ w' =>
      Related env r S A₀ w'.heap { c with top := fr } { pc with top := pf } := by
  have hx' : w.heap.Exact ((fr.get v).refs + (A + roots (σ.spendAll [v]) fr)) := by
    have := hs.exact_spendAll hx hv
    rw [add_comm]
    simpa [Frame.getAll] using this
  refine (release_keeps hdrops hx').mono ?_
  rintro _ w' ⟨hx'', hk⟩
  exact ⟨A, σ.spendAll [v], ⟨hs.waits.keeps (hk.mono (Multiset.le_add_right A _)), hs.plan,
    (hs.same.spendAll [v]).keeps hk⟩, hx'', hahead⟩

theorem callFrom_safe (hp : Planned env r S) (hroom : w.heap.HasRoom)
    (hs : Stands env r S A₀ w.heap A σ fr pf c.callers pc.callers)
    (hx : w.heap.Exact (A + roots σ fr))
    (hargs : σ.Covers (r fr.func) (handed (env.sigs.find? func) 0 args))
    (hlent : ∀ a ∈ lent (env.sigs.find? func) 0 args,
      (σ.spendAll (handed (env.sigs.find? func) 0 args)).Readable (r fr.func) a)
    (hdst : (σ.spendAll (handed (env.sigs.find? func) 0 args)).Fresh (r fr.func) dst)
    (hahead : Heads env r S fr ((σ.spendAll
      (handed (env.sigs.find? func) 0 args)).gain (r fr.func) dst))
    (hts : ts = (fr.getAll args).map (treeOf env.pool w.heap))
    (hasks : Plain.EnterAsks (.standard env.pool env.funcs) func ts)
    (hbare : ∀ e, Plain.enter (.standard env.pool env.funcs) func ts = some e →
      Bares (r (Plain.continueWith pc pf dst e).top.func) (Plain.continueWith pc pf dst e).top) :
    Safe (callFrom env c fr dst func (fr.getAll args)) w fun c' w' => ∃ e,
      Plain.enter (.standard env.pool env.funcs) func ts = some e ∧
      Related env r S A₀ w'.heap c' (Plain.continueWith pc pf dst e) := by
  set given := handed (env.sigs.find? func) 0 args with hgiven
  have hs' := hs.spendAll given
  have hx' : w.heap.Exact (refsAll (handed (env.sigs.find? func) 0 (fr.getAll args)) +
      (A + roots (σ.spendAll given) fr)) := by
    have := hs.exact_spendAll hx hargs
    rw [Frame.getAll, handed, pick_map, add_comm]
    exact this
  have hlent' : ∀ v ∈ lent (env.sigs.find? func) 0 (fr.getAll args),
      Within w.heap (A + roots (σ.spendAll given) fr) v := by
    intro v hv
    rw [Frame.getAll, lent, pick_map] at hv
    obtain ⟨a, ha, rfl⟩ := mem_map.1 hv
    exact hs'.same.within (hlent a ha)
  subst hts
  refine .bind ((enter_safe hp hroom hx' hlent' hasks fun pf' hpf' => hbare _ hpf').mono ?_)
  rintro e w' ⟨e', he', henters⟩
  have henters' : Enters env r S (A + roots (σ.spendAll given) fr + 0) w.heap w' e e' := by
    rw [add_zero]
    exact henters
  refine (@continueWith_safe _ _ _ _ _ _ _ _ _ _ _ ⟨dst, none⟩ hp.drops _ _ hs' hdst hahead rfl _ _
    henters' (hbare e' he')).mono ?_
  exact fun c' w'' hrel => ⟨e', he', hrel⟩

/-- What is handed over and what is lent is all there is. -/
theorem refsAll_handed_lent (modes : Option (List Mode)) : ∀ (i : Nat) (vs : List Value),
    refsAll vs = refsAll (handed modes i vs) + refsAll (lent modes i vs) := by
  intro i vs
  induction vs generalizing i with
  | nil => rfl
  | cons v vs ih =>
    rw [handed, lent, pick, pick, Value.refsAll_cons, ih (i + 1)]
    cases Borrow.takesOver modes i with
    | true =>
      rw [if_pos rfl, if_neg (by simp), Value.refsAll_cons]
      abel
    | false =>
      rw [if_neg (by simp), if_pos (by rfl), Value.refsAll_cons]
      abel

section

variable (hp : Planned env r S) (hroom : w.heap.HasRoom)
  (hs : Stands env r S A₀ w.heap A σ fr pf c.callers pc.callers)
  (hx : w.heap.Exact (A + roots σ fr))
include hp hroom hs hx

theorem callClosureFrom_safe {callee : Var} (hargs : σ.Covers (r fr.func) args)
    (hcallee : (σ.spendAll args).Readable (r fr.func) callee)
    (hdst : (σ.spendAll args).Fresh (r fr.func) dst) (hahead : Heads env r S fr ((σ.spendAll
      args).gain (r fr.func) dst))
    {t : Machine.Tree} (ht : t = treeOf env.pool w.heap (fr.get callee))
    (hts : ts = (fr.getAll args).map (treeOf env.pool w.heap)) {ty : TypeId} {v : Int} {s : Bytes}
    {n : Nat} (hl : t.label? = some (.object ty v s func n))
    (hasks : Plain.EnterAsks (.standard env.pool env.funcs) func (t.children n ++ ts))
    (hbare : ∀ e, Plain.enter (.standard env.pool env.funcs) func (t.children n ++ ts) = some e →
      Bares (r (Plain.continueWith pc pf dst e).top.func) (Plain.continueWith pc pf dst e).top) :
    Safe (callClosureFrom env c fr dst (fr.get callee) (fr.getAll args)) w fun c' w' => ∃ e,
      Plain.enter (.standard env.pool env.funcs) func (t.children n ++ ts) = some e ∧
      Related env r S A₀ w'.heap c' (Plain.continueWith pc pf dst e) := by
  have hs' := hs.spendAll args
  have hwithin := hs'.same.within hcallee
  have hx' := hs.exact_spendAll hx hargs
  set B := A + roots (σ.spendAll args) fr with hB
  have hobj : Plain.isObject (treeOf env.pool w.heap (fr.get callee)) = true := by
    rw [← ht]
    exact Plain.isObject_of_label hl
  obtain ⟨p, cell, hval, hcell, hlabel⟩ := ref_of_isObject hobj
  rw [ht, hlabel] at hl
  obtain ⟨-, -, -, rfl, rfl⟩ := Label.object.inj (some.inj hl)
  have ho := Heap.obj_of_find hcell
  set o := cell.object with hodef
  have hfields : t.children o.fields.length = o.fields.map (treeOf env.pool w.heap) := by
    rw [ht, hval, treeOf_ref ho, ← length_map (treeOf env.pool w.heap)]
    exact Tree.children_node
  rw [hval] at hwithin
  have hreach : w.heap.Reach B p := hwithin p (by simp)
  have hcaptured : ∀ u ∈ o.fields, Within w.heap B u := by
    intro u hu
    refine hwithin.part ?_
    rw [partsOf, ho]
    exact hu
  have hlive : ∀ u ∈ o.fields, ∀ q ∈ u.refs, w.heap.Live q :=
    fun u hu q hq => hx'.live_of_reach (Multiset.le_add_right B _) (hcaptured u hu q hq)
  set modes := env.sigs.find? o.func with hmodes
  set pend := refsAll (lent modes o.fields.length (fr.getAll args)) with hpend
  unfold callClosureFrom
  rw [hval]
  refine .bind (Safe.inContext (fun _ => rfl) (.objectAt hcell ?_))
  refine .bind (Ends.mono (x := retainCaptures (modes.getD []) o.fields)
    (retainCaptures_safe (i := 0) hlive) ?_)
  intro _ w₁ hr
  have hk : ∀ A, Heap.Keeps A w.heap w₁.heap := fun _ q _ => hr.obj q
  have htree : treeOf env.pool w₁.heap = treeOf env.pool w.heap :=
    funext fun u => treeOf_keeps within_refs (hk _)
  -- the closure has references of its own to what it hands over
  have hx₁ : w₁.heap.Exact
      (refsAll (handed modes 0 (o.fields ++ fr.getAll args)) + (B + pend)) := by
    have hcaptures : ∀ q ∈ refsAll (handed modes 0 o.fields), w.heap.Live q := by
      intro q hq
      obtain ⟨u, hu, hq⟩ := Value.mem_refsAll.1 hq
      exact hlive u (mem_of_mem_pick hu) q hq
    have hraised := hr.exact hcaptures hx'
    rw [refsAll_handed_lent modes o.fields.length (fr.getAll args)] at hraised
    rw [handed, pick_append, Value.refsAll_append, zero_add]
    convert hraised using 1
    abel
  have hlent₁ : ∀ u ∈ lent modes 0 (o.fields ++ fr.getAll args),
      Within w₁.heap (B + pend) u := by
    intro u hu
    rw [lent, pick_append, zero_add] at hu
    rcases mem_append.1 hu with hu | hu
    · exact ((hcaptured u (mem_of_mem_pick hu)).keeps (hk B)).mono (Multiset.le_add_right B _)
    · exact fun q hq => .root (Multiset.mem_add.2 (.inr (Value.mem_refsAll.2 ⟨u, hu, hq⟩)))
  have hargs₁ : t.children o.fields.length ++ ts =
      (o.fields ++ fr.getAll args).map (treeOf env.pool w₁.heap) := by
    rw [hfields, hts, htree, map_append]
  rw [hargs₁] at hasks hbare ⊢
  refine .bind ((enter_safe hp (hr.hasRoom hroom) hx₁ hlent₁ hasks
    fun pf' hpf' => hbare _ hpf').mono ?_)
  rintro e w₂ ⟨e', he', henters⟩
  have hs₁ : Stands env r S A₀ w₁.heap A (σ.spendAll args) fr pf c.callers pc.callers :=
    ⟨hs'.waits.keeps (hk A), hs'.plan, hs'.same.keeps (hk _)⟩
  have hwaits : Pending w₁.heap B pend (some ⟨p, fr.getAll args, modes.getD []⟩) :=
    ⟨modes, o, rfl, hreach.keeps (hk B), by rw [hr.obj, ho], rfl⟩
  refine (@continueWith_safe _ _ _ _ _ _ _ _ _ _ _ ⟨dst, some ⟨p, fr.getAll args, modes.getD []⟩⟩
    hp.drops _ _ hs₁ hdst hahead hwaits _ _ henters (hbare e' he')).mono ?_
  exact fun c' w' hrel => ⟨e', he', hrel⟩

/-- An instruction goes along with what it does without counts. -/
theorem exec_safe {x : Instr} (hmove : Moves env.sigs (r fr.func) σ x σ')
    (hahead : Heads env r S fr σ')
    (hset : ∀ v ∈ x.uses, fr.isSet v = true)
    (hasks : Plain.Asks (.standard env.pool env.funcs) pf x)
    (hbare : ∀ pc', Plain.exec (.standard env.pool env.funcs) pc pf x = some pc' →
      Bares (r pc'.top.func) pc'.top) : Safe (exec env c fr x) w fun c' w' => ∃ pc',
      Plain.exec (.standard env.pool env.funcs) pc pf x = some pc' ∧
        Related env r S A₀ w'.heap c' pc' := by
  have hfunc : pf.func = fr.func := hs.same.func
  have hnever : ∀ v ∈ x.uses, ¬(r fr.func).never v := by
    intro v hv hn
    have := hset v hv
    rw [hs.same.never v hn] at this
    cases this
  have hread : ∀ vs, (∀ v ∈ vs, fr.isSet v = true) → (∀ v ∈ vs, σ.Readable (r fr.func) v) →
      pf.getAll vs = some ((fr.getAll vs).map (treeOf env.pool w.heap)) :=
    fun vs hvs hr => hs.same.values hr hvs
  cases x with
  | lit dst value =>
    cases hmove with
    | stuck hv hn => exact absurd hn (hnever _ hv)
    | lit hdst =>
      refine (on_safe hs hdst hahead (fun u hu => ?_)
        (literalValue_safe value hroom hx)).mono ?_
      · cases hu
        exact hfunc ▸ hbare _ rfl
      · rintro c' w' ⟨u, hu, hrel⟩
        cases hu
        exact ⟨_, rfl, hrel⟩
  | move dst src =>
    refine .bind ((@move_safe _ _ _ _ _ _ _ _ _ c pc _ _ _ hs hx hmove hahead
      (hset src (.head _)) fun u hu => ?_).mono ?_)
    · exact hfunc ▸ hbare { pc with top := pf.assign dst u } (by rw [Plain.exec, hu]; rfl)
    · rintro fr' w' ⟨u, hu, hrel⟩
      exact .pure ⟨{ pc with top := pf.assign dst u }, by rw [Plain.exec, hu]; rfl, hrel⟩
  | prim dst op args =>
    cases hmove with
    | stuck hv hn => exact absurd hn (hnever _ hv)
    | prim hargs hdst =>
      have hts := hread args hset hargs
      have hexec : ∀ u, Plain.prim env.pool op ((fr.getAll args).map (treeOf env.pool w.heap)) =
          some u → Plain.exec (.standard env.pool env.funcs) pc pf (.prim dst op args) =
          some { pc with top := pf.assign dst u } := by
        intro u hu
        simp only [Plain.exec, hts, bind_eq_bind, bind_some, hu]
        rfl
      refine (on_safe hs hdst hahead (fun u hu => hfunc ▸ hbare _ (hexec u hu))
        (prim_safe hroom hx (fun v hv => ?_) fun hop v hv => ?_)).mono ?_
      · obtain ⟨a, ha, rfl⟩ := mem_map.1 hv
        exact hs.same.within (hargs a ha)
      · exact hasks _ hts hop _ (mem_map_of_mem hv)
      · rintro c' w' ⟨u, hu, hrel⟩
        exact ⟨_, hexec u hu, hrel⟩
  | call dst func args tail =>
    cases hmove with
    | stuck hv hn => exact absurd hn (hnever _ hv)
    | call hargs hlent hdst =>
      have hts : pf.getAll args = some ((fr.getAll args).map (treeOf env.pool w.heap)) := by
        refine hread args hset fun a ha => ?_
        rcases @mem_handed_or_lent _ (env.sigs.find? func) _ 0 _ ha with ha | ha
        · exact readable_of_covers hargs a ha
        · exact readable_of_spendAll (hlent a ha)
      have hexec : ∀ e, Plain.enter (.standard env.pool env.funcs) func
          ((fr.getAll args).map (treeOf env.pool w.heap)) = some e →
          Plain.exec (.standard env.pool env.funcs) pc pf (.call dst func args tail) =
            some (Plain.continueWith pc pf dst e) := by
        intro e he
        simp only [Plain.exec, hts, bind_eq_bind, bind_some, he]
        rfl
      refine (callFrom_safe hp hroom hs hx hargs hlent hdst hahead rfl (hasks _ hts)
        fun e he => hbare _ (hexec e he)).mono ?_
      rintro c' w' ⟨e, he, hrel⟩
      exact ⟨_, hexec e he, hrel⟩
  | callClosure dst callee args =>
    cases hmove with
    | stuck hv hn => exact absurd hn (hnever _ hv)
    | callClosure hargs hcallee hdst =>
      have hts := hread args (fun v hv => hset v (mem_cons_of_mem callee hv))
        (readable_of_covers hargs)
      have ht := hs.same.value (readable_of_spendAll hcallee) (hset callee (.head _))
      obtain ⟨ty, v, s, func, n, hl, hasks⟩ := hasks _ _ ht hts
      have hexec : ∀ e, Plain.enter (.standard env.pool env.funcs) func
          ((treeOf env.pool w.heap (fr.get callee)).children n ++
            (fr.getAll args).map (treeOf env.pool w.heap)) = some e →
          Plain.exec (.standard env.pool env.funcs) pc pf (.callClosure dst callee args) =
            some (Plain.continueWith pc pf dst e) := by
        intro e he
        simp only [Plain.exec, ht, hts, bind_eq_bind, bind_some, hl, he]
        rfl
      refine (callClosureFrom_safe hp hroom hs hx hargs hcallee hdst hahead rfl rfl hl hasks
        fun e he => hbare _ (hexec e he)).mono ?_
      rintro c' w' ⟨e, he, hrel⟩
      exact ⟨_, hexec e he, hrel⟩
  | closure dst func captures =>
    cases hmove with
    | stuck hv hn => exact absurd hn (hnever _ hv)
    | closure hargs hdst =>
      have hts := hread captures hset (readable_of_covers hargs)
      have hexec : Plain.exec (.standard env.pool env.funcs) pc pf (.closure dst func captures) =
          some { pc with top := pf.assign dst (Plain.closure env.pool (fr.func.typeOf dst) func
            ((fr.getAll captures).map (treeOf env.pool w.heap))) } := by
        simp only [Plain.exec, hts, bind_eq_bind, bind_some, hfunc]
        rfl
      refine (on_safe (hs.spendAll captures) hdst hahead (fun u hu => ?_)
        (newClosure_safe hroom (hs.exact_spendAll hx hargs))).mono ?_
      · cases hu
        exact hfunc ▸ hbare _ hexec
      · rintro c' w' ⟨u, hu, hrel⟩
        cases hu
        exact ⟨_, hexec, hrel⟩
  | construct dst type variant args =>
    cases hmove with
    | stuck hv hn => exact absurd hn (hnever _ hv)
    | construct hargs hdst =>
      have hts := hread args hset (readable_of_covers hargs)
      have hexec : ∀ u, Plain.construct env.pool type variant
          ((fr.getAll args).map (treeOf env.pool w.heap)) = some u →
          Plain.exec (.standard env.pool env.funcs) pc pf (.construct dst type variant args) =
            some { pc with top := pf.assign dst u } := by
        intro u hu
        simp only [Plain.exec, hts, bind_eq_bind, bind_some, hu]
        rfl
      refine (on_safe (hs.spendAll args) hdst hahead
        (fun u hu => hfunc ▸ hbare _ (hexec u hu))
        (construct_safe hroom (hs.exact_spendAll hx hargs) fun d hd hk hb => ?_)).mono ?_
      · rw [hasks d hd hk hb]
        rfl
      · rintro c' w' ⟨u, hu, hrel⟩
        exact ⟨_, hexec u hu, hrel⟩
  | project dst src variant field =>
    have hexec : ∀ t u, pf.vars src = some t → Plain.project t variant field = some u →
        Plain.exec (.standard env.pool env.funcs) pc pf (.project dst src variant field) =
          some { pc with top := pf.assign dst u } := by
      intro t u ht hu
      simp only [Plain.exec, ht, bind_eq_bind, bind_some, hu]
      rfl
    refine (projectFrom_safe hs hx hmove hahead (hset src (.head _))
      fun t u ht hu => hfunc ▸ hbare _ (hexec t u ht hu)).mono ?_
    rintro c' w' ⟨t, u, ht, hu, hrel⟩
    exact ⟨_, hexec t u ht hu, hrel⟩
  | tag dst src =>
    cases hmove with
    | stuck hv hn => exact absurd hn (hnever _ hv)
    | tag hsrc hdst =>
      have ht := hs.same.value hsrc (hset src (.head _))
      have hexec : ∀ u, Plain.tagOf (treeOf env.pool w.heap (fr.get src)) = some u →
          Plain.exec (.standard env.pool env.funcs) pc pf (.tag dst src) =
            some { pc with top := pf.assign dst u } := by
        intro u hu
        simp only [Plain.exec, ht, bind_eq_bind, bind_some, hu]
        rfl
      refine (on_safe hs hdst hahead (fun u hu => hfunc ▸ hbare _ (hexec u hu))
        (tagOf_safe hx (hs.same.within hsrc))).mono ?_
      rintro c' w' ⟨u, hu, hrel⟩
      exact ⟨_, hexec u hu, hrel⟩
  | inc v =>
    cases hmove with
    | stuck hv hn => exact absurd hn (hnever _ hv)
    | inc hv =>
      refine .bind ((inc_safe hs hx hv hahead).mono fun _ w' hrel => ?_)
      exact .pure ⟨_, rfl, hrel⟩
  | dec v =>
    cases hmove with
    | stuck hv hn => exact absurd hn (hnever _ hv)
    | dec hv =>
      refine .bind ((dec_safe hp.drops hs hx hv hahead).mono fun _ w' hrel => ?_)
      exact .pure ⟨_, rfl, hrel⟩
  | _ =>
    cases hmove with
    | stuck hv hn => exact absurd hn (hnever _ hv)

end

end Exec

-- ======== terminators

/-- What is an integer holds no references. -/
theorem refs_of_label_int {pool : Pool} {h : Heap} {v : Value} {n : Int64}
    (hv : (treeOf pool h v).label? = some (.int n)) : v.refs = 0 := by
  rw [label_treeOf] at hv
  cases v with
  | int m => exact Value.refs_int m
  | ref p =>
    rw [labelOf] at hv
    obtain ⟨o, -, ho⟩ := map_eq_some_iff.1 hv
    cases ho
  | _ => cases some.inj hv

section Term

variable {w : World} {A : Multiset Address} {σ : Holding} {c : Config} {pc : Plain.Config}
variable {pool : Pool} {roles : Roles} {h : Heap} {u : Var → Prop} {fr : Frame} {pf : Plain.Frame}
  {t : Target}

/-- What is expected where an edge leads is what is known, but for variables
that hold nothing. -/
theorem Matches.agree {τ : Holding} (hm : Matches pool roles h A σ fr pf)
    (ha : σ.AgreeBut roles u τ) (hu : ∀ x, u x → σ.Readable roles x ∧ (fr.get x).refs = 0) :
    Matches pool roles h A τ fr pf ∧ roots τ fr = roots σ fr := by
  obtain ⟨hown, hpart⟩ := ha
  refine ⟨hm.weaken (fun x _ hx => ?_) fun x q hq => ?_, roots_congr fun x hx => ?_⟩
  · by_cases hux : u x
    · exact (hu x hux).1
    · by_cases hc : roles.counted x = true
      · rcases hx with hx | hx | hx | hx
        · exact .inl hx
        · exact .inr (.inl hx)
        · exact .inr (.inr (.inl (hown x hux hc ▸ hx)))
        · obtain ⟨q, hq⟩ := isSome_iff_exists.1 hx
          exact .inr (.inr (.inr (by rw [(hpart x q hq).2.2]; rfl)))
      · exact .inl (by simpa using hc)
  · obtain ⟨huq, hc, hq'⟩ := hpart x q hq
    exact ⟨hq', by rw [hown q.1 huq hc]; exact (hm.part x q hq').2.1⟩
  · refine hown x (fun hux => hx (hu x hux).2) ?_
    by_contra hc
    exact hx (hm.bare x (by simpa using hc))

/-- Both frames go to the same block. -/
theorem plain_goTo {b : Block} (hm : Matches pool roles h A σ fr pf)
    (hb : t.bind fr.func.block? = some b) :
    pf.goTo t = some { pf with block := b, code := b.code } := by
  rw [← hm.func] at hb
  unfold Plain.Frame.goTo
  rw [hb]
  rfl

section

variable (hs : Stands env r S A₀ w.heap A σ c.top pc.top c.callers pc.callers)
  (hx : w.heap.Exact (A + roots σ c.top))
include hs hx

/-- Going along an edge without arguments. -/
theorem goTo_safe (ht : Expects (r c.top.func) (S c.top.func) u σ t)
    (hu : ∀ x, u x → σ.Readable (r c.top.func) x ∧ (c.top.get x).refs = 0) :
    Safe (do return Progress.running { c with top := ← c.top.goTo t }) w fun pr w' => ∃ pr',
      (pc.top.goTo t).map (fun next => Plain.Progress.running { pc with top := next }) =
        some pr' ∧ Goes env r S A₀ w' pr pr' := by
  refine .bind (Safe.goTo fun block hblock => .pure ?_)
  obtain ⟨b, rfl, hb⟩ := bind_eq_some_iff.1 hblock
  obtain ⟨τ, hτ, ha⟩ := ht b rfl
  obtain ⟨hm, hroots⟩ := hs.same.agree ha hu
  refine ⟨_, ?_, @Goes.running _ _ _ _ _ _ { pc with
    top := { pc.top with block := block, code := block.code } } ⟨A, τ, ?_, ?_, ?_⟩⟩
  · rw [plain_goTo hs.same hblock]
    rfl
  · exact ⟨hs.waits, hs.plan, hm.goTo block⟩
  · show w.heap.Exact (A + roots τ c.top)
    rw [hroots]
    exact hx
  · exact hs.plan.block b block τ hb hτ

/-- Going along an edge with arguments. -/
theorem jump_safe {args : List Var}
    (hleaves : Leaves (r c.top.func) (S c.top.func) c.top.func σ (.jump t args))
    (hset : ∀ v ∈ args, c.top.isSet v = true) {ts : List Machine.Tree}
    (hts : pc.top.getAll args = some ts)
    (hbare : ∀ next fr, pc.top.goTo t = some next → next.assignAll next.block.params ts = some fr →
      Bares (r fr.func) fr) : Safe (do
        let next ← c.top.goTo t return Progress.running { c with
          top := ← next.setAll next.block.params (c.top.getAll args) }) w fun pr w' =>
      ∃ next fr, pc.top.goTo t = some next ∧
        next.assignAll next.block.params ts = some fr ∧
        Goes env r S A₀ w' pr (.running { pc with top := fr }) := by
  cases hleaves with
  | jump hargs ht =>
    refine .bind (Safe.goTo fun block hblock => .bind (setAll_safe fun _ hsize => .pure ?_))
    obtain ⟨b, rfl, hb⟩ := bind_eq_some_iff.1 hblock
    obtain ⟨hlen, hnd, hfresh, hexp⟩ := ht b block rfl hb
    obtain ⟨τ, hτ, ha⟩ := hexp b rfl
    have hts' := hs.same.values (readable_of_covers hargs) hset
    rw [hts] at hts'
    cases hts'
    have hx' := hs.exact_spendAll hx hargs
    have hlive : ∀ v ∈ c.top.getAll args, ∀ p ∈ v.refs, w.heap.Live p := by
      intro v hv p hp
      exact hx'.live_of_mem (Multiset.mem_add.2 (.inr (Value.mem_refsAll.2 ⟨v, hv, hp⟩)))
    have hgo := plain_goTo hs.same hblock
    obtain ⟨fr, hall⟩ := @assignAll_isSome block.params
      ((c.top.getAll args).map (treeOf env.pool w.heap))
      { pc.top with block := block, code := block.code }
      (by simp [Frame.getAll, hlen])
    have hbares := hbare _ fr hgo hall
    have hfunc : fr.func = c.top.func := (assignAll_func hall).trans hs.same.func
    rw [hfunc] at hbares
    have hrefs := refs_of_bares hnd (by simp [Frame.getAll, hlen]) hlive hall hbares
    obtain ⟨hm, hroots⟩ := ((hs.same.spendAll args).goTo block).gainAll hnd hsize hfresh hrefs hall
    obtain ⟨hm', hroots'⟩ := hm.agree ha fun _ hu => hu.elim
    obtain ⟨hf, hblock', hcode⟩ := @assignedAll_same block.params (c.top.getAll args)
      { c.top with block := block, code := block.code }
    refine ⟨_, fr, hgo, hall, .running ⟨A, τ, ⟨hs.waits, ?_, ?_⟩, ?_, ?_⟩⟩
    · rw [hf]
      exact hs.plan
    · rw [hf]
      exact hm'
    · show w.heap.Exact (A + roots τ _)
      rw [hroots', hroots, add_left_comm, add_comm]
      exact hx'
    · rw [Heads, hf, hblock', hcode]
      exact hs.plan.block b block τ hb hτ

end

/-- Handing a result to a caller. -/
theorem returnValue_safe (hdrops : env.drops = none) {v : Value}
    {cs : List (Frame × Await)} {pcs : List (Plain.Frame × Var)}
    (hwait : Waits env r S A₀ w.heap A cs pcs) (hx : w.heap.Exact (A + v.refs))
    (hbare : ∀ pc', Plain.returnTree pcs (treeOf env.pool w.heap v) = .running pc' →
      Bares (r pc'.top.func) pc'.top) : Safe (returnValue env cs v) w fun pr w' =>
      Goes env r S A₀ w' pr (Plain.returnTree pcs (treeOf env.pool w.heap v)) := by
  cases hwait with
  | nil => exact .pure (.finished hx)
  | @cons A pend σ fr pf aw cs pcs hrest hplan hm hdst hahead hpend =>
    have hy : Yields env.pool (A + roots σ fr + pend) w.heap
        (some (treeOf env.pool w.heap v)) v w := ⟨hx, .refl, rfl⟩
    have hbares := hbare _ rfl
    have hfunc : (pf.assign aw.dst (treeOf env.pool w.heap v)).func = fr.func := hm.func
    rw [hfunc] at hbares
    refine .bind (Safe.inContext (fun e => place_cause _ e)
      (deliver_safe hdrops hpend hy fun w' hy' => ?_))
    have hs : Stands env r S A₀ w.heap A σ fr pf cs pcs := ⟨hrest, hplan, hm⟩
    refine (hs.gain hdst hahead hy' hbares).mono ?_
    rintro fr' w'' ⟨rfl, hrel⟩
    exact .pure (.running hrel)

/-- A frame that owns nothing but a variable. -/
theorem roots_single (hm : Matches pool roles h A σ fr pf) {v : Var}
    (hv : ∀ x, roles.counted x → σ.own x = if x = v then 1 else 0) :
    roots σ fr = (fr.get v).refs := by
  have hcounted : ∀ x, (fr.get x).refs ≠ 0 → roles.counted x = true := by
    intro x hx
    by_contra hc
    exact hx (hm.bare x (by simpa using hc))
  have hpos : (fr.get v).refs ≠ 0 → 0 < σ.own v := by
    intro hne
    rw [hv v (hcounted v hne), if_pos rfl]
    exact one_pos
  have hrest : roots (σ.spend v) fr = 0 := by
    refine Finset.sum_eq_zero fun x _ => ?_
    by_cases hx : (fr.get x).refs = 0
    · rw [hx, smul_zero]
    · have hown := hv x (hcounted x hx)
      by_cases hxv : x = v
      · subst hxv
        simp [Holding.spend, hown]
      · simp [Holding.spend, hxv, hown]
  rw [roots_spend hpos, hrest, add_zero]

/-- A terminator goes along with what it does without counts. -/
theorem execTerm_safe (hdrops : env.drops = none)
    (hs : Stands env r S A₀ w.heap A σ c.top pc.top c.callers pc.callers)
    (hx : w.heap.Exact (A + roots σ c.top)) (hleaves : ∀ t, c.top.block.term = some t →
      Leaves (r c.top.func) (S c.top.func) c.top.func σ t)
    (hasks : ∀ t, pc.top.block.term = some t → Plain.TermAsks pc.top t)
    (hbare : ∀ pc', Plain.execTerm pc = some (.running pc') → Bares (r pc'.top.func) pc'.top) :
    Safe (execTerm env c) w fun pr w' => ∃ pr', Plain.execTerm pc = some pr' ∧
      Goes env r S A₀ w' pr pr' := by
  have hblock := hs.same.block
  unfold execTerm
  refine .bind (Safe.inContext (fun e => place_cause c _) (Safe.check fun hset => ?_))
  unfold Plain.execTerm at hbare ⊢
  dsimp only at hbare ⊢
  rw [hblock] at hasks hbare ⊢
  have huses : ∀ t, c.top.block.term = some t → ∀ v ∈ t.uses, c.top.isSet v = true := by
    intro t ht v hv
    refine hset v ?_
    unfold Block.termUses
    rw [ht]
    exact hv
  -- what a branch or a switch looks at is a number
  have hnumber : ∀ v, σ.Readable (r c.top.func) v → c.top.isSet v = true →
      (∀ t, pc.top.vars v = some t → ∃ n, t.label? = some (.int n)) →
      pc.top.vars v = some (treeOf env.pool w.heap (c.top.get v)) ∧
      Plain.toInt (treeOf env.pool w.heap (c.top.get v)) = (c.top.get v).toInt ∧
      ∀ x, x = v → σ.Readable (r c.top.func) x ∧ (c.top.get x).refs = 0 := by
    intro v hread hv hlabel
    have hval := hs.same.value hread hv
    obtain ⟨n, hn⟩ := hlabel _ hval
    refine ⟨hval, toInt_treeOf _, ?_⟩
    rintro x rfl
    exact ⟨hread, refs_of_label_int hn⟩
  cases hterm : c.top.block.term with
  | none => exact Safe.fault
  | some term =>
    have hleaves := hleaves term hterm
    have hasks := hasks term hterm
    have huses := huses term hterm
    rw [hterm] at hbare
    cases term with
    | ret v =>
      cases hleaves with
      | ret hv =>
        have hread : σ.Readable (r c.top.func) v := by
          by_cases hc : (r c.top.func).counted v = true
          · exact .inr (.inr (.inl (by rw [hv v hc, if_pos rfl]; exact one_pos)))
          · exact .inl (by simpa using hc)
        have hval := hs.same.value hread (huses v (.head _))
        rw [roots_single hs.same hv] at hx
        simp only [hval, map_some] at hbare ⊢
        refine (returnValue_safe hdrops hs.waits hx fun pc' hpc' => ?_).mono ?_
        · exact hbare pc' (by rw [hpc'])
        · exact fun pr w' hgoes => ⟨_, rfl, hgoes⟩
    | jump target args =>
      have hts : pc.top.getAll args =
          some ((c.top.getAll args).map (treeOf env.pool w.heap)) := by
        cases hleaves with
        | jump hargs _ => exact hs.same.values (readable_of_covers hargs) huses
      have hexec : ∀ next fr, pc.top.goTo target = some next →
          next.assignAll next.block.params
            ((c.top.getAll args).map (treeOf env.pool w.heap)) = some fr →
          (do
            let ts ← pc.top.getAll args
            let next ← pc.top.goTo target
            return Plain.Progress.running { pc with
              top := ← next.assignAll next.block.params ts }) =
            some (.running { pc with top := fr }) := by
        intro next fr hgo hall
        simp only [hts, bind_eq_bind, bind_some, hgo, hall]
        rfl
      refine (jump_safe hs hx hleaves huses hts fun next fr hgo hall => ?_).mono ?_
      · exact hbare { pc with top := fr } (hexec next fr hgo hall)
      · exact fun pr w' ⟨next, fr, hgo, hall, hgoes⟩ => ⟨_, hexec next fr hgo hall, hgoes⟩
    | branch v thenTo elseTo =>
      cases hleaves with
      | branch hv hthen helse =>
        obtain ⟨hval, hint, hu⟩ := hnumber v hv (huses v (.head _)) hasks
        simp only [hval, bind_eq_bind, bind_some, hint]
        refine goTo_safe hs hx ?_ hu
        split
        · exact hthen
        · exact helse
    | switch v cases default =>
      cases hleaves with
      | switch hv htargets =>
        obtain ⟨hval, hint, hu⟩ := hnumber v hv (huses v (.head _)) hasks
        simp only [hval, bind_eq_bind, bind_some, hint]
        have hexp := htargets _ (switchTarget_mem v (c.top.get v).toInt cases default)
        cases htarget : switchTarget (c.top.get v).toInt cases default with
        | none =>
          refine .throw fun x hx => ?_
          rw [place_cause] at hx
          cases hx
        | some b =>
          rw [htarget] at hexp
          exact goTo_safe hs hx hexp hu
    | unreachable =>
      refine .throw fun x hx => ?_
      rw [place_cause] at hx
      cases hx

end Term

-- ======== steps

section Steps

variable {w : World} {c : Config} {pc : Plain.Config}

theorem checkDef_safe {fr : Frame} {x : Instr} {P : Unit → World → Prop} (h : P () w) :
    Safe (checkDef fr x) w P := by
  unfold checkDef
  split
  · split
    · exact .pure h
    · exact Safe.fault
  · exact .pure h

theorem step_safe (hp : Planned env r S) (hroom : w.heap.HasRoom)
    (hrel : Related env r S A₀ w.heap c pc) (hfine : Fine env r pc)
    (hnext : ∀ pc', Plain.step (.standard env.pool env.funcs) pc = some (.running pc') →
      Bares (r pc'.top.func) pc'.top) : Safe (step env c) w fun pr w' => ∃ pr',
      Plain.step (.standard env.pool env.funcs) pc = some pr' ∧ Goes env r S A₀ w' pr pr' := by
  obtain ⟨A, σ, hs, hx, hahead⟩ := hrel
  have hcode : pc.top.code = c.top.code := hs.same.code
  unfold step
  unfold Plain.step at hnext ⊢
  rw [hcode] at hnext ⊢
  cases hc : c.top.code with
  | nil =>
    rw [hc] at hnext
    rw [Heads, hc] at hahead
    have hterm := fun t ht => hfine.term t (hcode.trans hc) ht
    exact execTerm_safe hp.drops hs hx hahead hterm hnext
  | cons x rest =>
    rw [hc] at hnext
    rw [Heads, hc] at hahead
    dsimp only at hnext ⊢
    obtain ⟨σ', hmove, hahead⟩ := hahead
    unfold execNext
    refine .bind (.tally ?_)
    -- counting the step leaves the heap alone
    generalize hw : ({ w with stats := { w.stats with steps := w.stats.steps + 1 } } : World) = w₁
    obtain hheap : w.heap = w₁.heap := by rw [← hw]
    rw [hheap] at hroom hs hx
    refine Safe.inContext (place_cause c) (.bind (Safe.check fun hset => ?_))
    refine .bind (checkDef_safe (.bind ?_))
    have hs' : Stands env r S A₀ w₁.heap A σ { c.top with code := rest }
        { pc.top with code := rest } c.callers pc.callers :=
      ⟨hs.waits, hs.plan, hs.same.goOn rest⟩
    refine (exec_safe hp hroom hs' hx hmove hahead hset
      (hfine.asks x rest (hcode.trans hc)) fun pc' hpc' => hnext pc' ?_).mono ?_
    · rw [hpc']
      rfl
    · rintro c' w' ⟨pc', hpc', hrel⟩
      exact .pure ⟨.running pc', by rw [hpc']; rfl, .running hrel⟩

end Steps

-- ======== runs

/-- Within a number of steps a run comes by a configuration in a world. -/
inductive Visits (env : Env) : Nat → Config → World → Config → World → Prop
  | here {steps : Nat} {c : Config} {w : World} : Visits env steps c w c w
  | later {steps : Nat} {c c₁ c₂ : Config} {w w₁ w₂ : World}
      (hstep : (step env c).run.run w = (.ok (.running c₁), w₁))
      (hrest : Visits env steps c₁ w₁ c₂ w₂) : Visits env (steps + 1) c w c₂ w₂

/-- There is always memory for a new object in a run. -/
def Roomy (env : Env) (steps : Nat) (c : Config) (w : World) : Prop :=
  ∀ c' w', Visits env steps c w c' w' → w'.heap.HasRoom

/-- What holds of a run without counts throughout, and is enough for a
plan. -/
structure Keeper (env : Env) (r : Func → Roles) (G : Plain.Config → Prop) : Prop where
  fine : ∀ pc, G pc → Fine env r pc
  step : ∀ pc pc', G pc →
    Plain.step (.standard env.pool env.funcs) pc = some (.running pc') → G pc'

/-- A run goes along with a run without counts to the same end. -/
theorem runFor_safe (hp : Planned env r S) (hG : Keeper env r G) :
    ∀ (steps : Nat) {c : Config} {pc : Plain.Config} {w : World},
    G pc → Roomy env steps c w → Related env r S A₀ w.heap c pc →
    Safe (ExceptT.mk (StateT.mk (runFor env steps c))) w fun v w' =>
      w'.heap.Exact (A₀ + v.refs) ∧
      Plain.runFor (.standard env.pool env.funcs) steps pc = some (treeOf env.pool w'.heap v) := by
  intro steps
  induction steps with
  | zero => exact fun _ _ _ => Safe.fault
  | succ steps ih =>
    intro c pc w hgood hroom hrel
    have hstep := step_safe hp (hroom c w .here) hrel (hG.fine pc hgood)
      fun pc' hpc' => (hG.fine pc' (hG.step pc pc' hgood hpc')).bare
    rcases hres : (step env c).run.run w with ⟨e | pr, w₁⟩
    · have hrun : runFor env (steps + 1) c w = (.error e, w₁) := by rw [runFor, hres]
      exact .ended_error hrun (hstep.of_error hres)
    · obtain ⟨pr', hpr', hgoes⟩ := hstep.of_ok hres
      rw [Plain.runFor, hpr']
      cases hgoes with
      | @running c' pc' hrel' =>
        have hrun : runFor env (steps + 1) c w = runFor env steps c' w₁ := by rw [runFor, hres]
        exact .goes_on hrun (ih (hG.step pc _ hgood hpr')
          (fun c' w' hv => hroom c' w' (.later hres hv)) hrel')
      | @finished v hx =>
        have hrun : runFor env (steps + 1) c w = (.ok v, w₁) := by rw [runFor, hres]
        exact .goes_on hrun (.pure ⟨hx, rfl⟩)

/-- Within a number of steps a call comes by a world: the one it starts in, or
one that its frame comes by. -/
inductive CallVisits (env : Env) (steps : Nat) (name : String) (args : List Value) (w : World) :
    World → Prop
  | start : CallVisits env steps name args w w
  | inside {fr : Frame} {c' : Config} {w₁ w' : World}
      (henter : (enter env 0 name args).run.run w = (.ok (.frame fr), w₁))
      (hv : Visits env steps ⟨fr, []⟩ w₁ c' w') : CallVisits env steps name args w w'

/-- A call takes over what is handed to it, and gives an owned result that
denotes what the call gives without counts. -/
theorem callFor_safe {w : World} (hp : Planned env r S) (hG : Keeper env r G) (steps : Nat)
    {name : String} {args : List Value}
    (hroom : ∀ w', CallVisits env steps name args w w' → w'.heap.HasRoom)
    (hx : w.heap.Exact (refsAll (handed (env.sigs.find? name) 0 args) + A₀))
    (hlent : ∀ v ∈ lent (env.sigs.find? name) 0 args, Within w.heap A₀ v)
    (hasks : Plain.EnterAsks (.standard env.pool env.funcs) name
      (args.map (treeOf env.pool w.heap)))
    (hstart : ∀ pf, Plain.enter (.standard env.pool env.funcs) name
      (args.map (treeOf env.pool w.heap)) = some (.frame pf) → G ⟨pf, []⟩) :
    Safe (callFor env steps name args) w fun v w' => w'.heap.Exact (A₀ + v.refs) ∧
      Plain.Evaluates (.standard env.pool env.funcs) name (args.map (treeOf env.pool w.heap))
        (treeOf env.pool w'.heap v) := by
  have henter := @enter_safe _ _ _ _ _ _ _ hp 0 (hroom w .start) hx hlent hasks
    fun pf hpf => (hG.fine _ (hstart pf hpf)).bare
  refine .bind (henter.mono_ok ?_)
  rintro entered w₁ hres ⟨e', he', henters⟩
  cases henters with
  | result hy =>
    refine .pure ⟨hy.exact, 0, ?_⟩
    rw [Plain.callFor, he', ← hy.tree]
  | @frame fr pf σ hheap hx hfr =>
    have hrel : Related env r S A₀ w₁.heap ⟨fr, []⟩ ⟨pf, []⟩ := by
      rw [hheap]
      exact ⟨A₀, σ, ⟨.nil, hfr.plan, hfr.same⟩, hx, hfr.ahead⟩
    have hrun : Roomy env steps ⟨fr, []⟩ w₁ := fun _ w' hv => hroom w' (.inside hres hv)
    refine (runFor_safe hp hG steps (hstart pf he') hrun hrel).mono ?_
    rintro v w' ⟨hx', hplain⟩
    exact ⟨hx', steps, by rw [Plain.callFor, he']; exact hplain⟩

end RefCount.Ownership
