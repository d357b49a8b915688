/-
Inserted counts are right. A package of typed functions gets its counts, and
then every call of one of them on a heap whose accounts are in order leaves the
accounts in order: what was handed over is gone, the result is held, and all
else is as it was. No object is used after it was freed, and the result denotes
what the functions mean without counts (`callFor_counted`).

# The argument

Each function with counts follows a plan (`Counted.follows`), so that a run of
the machine goes along with a run on trees of the same functions
(`callFor_safe`). That run in turn goes along with one of the functions without
counts (`Plain.step_along`), which keeps types; and what a plan takes for granted
of variables and operands are matters of types.

# Memory

That an object gets an address of its own is not taken for granted. Objects
stand one behind the other at the start (`Heap.Laid`), whatever runs keeps to
that as long as addresses do not wrap around (`Laid.evolves`), and so a call
that asks for less memory than there are addresses (`CallFits`) always finds
an address that has not been given out.
-/
import Mathlib
import RefCount.Proofs.Machine.Evolve
import RefCount.Proofs.Ownership.Inserted
import RefCount.Proofs.Ownership.Run
import RefCount.Proofs.Plain.Erase

namespace RefCount.Ownership

open Ir RefCount.Count List Option
open Machine (Value World Env treeOf callFor)
open Machine.Value (refsAll)

-- ======== one function

section Erase

variable {c : Facts} {l : Liveness} {f g : Func} {route : BlockId → BlockId → BlockId}
  {front : BlockId → List Var} {b : BlockId} {block : Block}

theorem erase_append (xs ys : List Instr) :
    Plain.erase (xs ++ ys) = Plain.erase xs ++ Plain.erase ys :=
  filter_append xs ys

theorem erase_counts {xs : List Instr} (h : ∀ x ∈ xs, ∃ v, x = .inc v ∨ x = .dec v) :
    Plain.erase xs = [] := by
  refine filter_eq_nil_iff.2 fun x hx => ?_
  obtain ⟨v, rfl | rfl⟩ := h x hx
  · simp [Instr.isCount]
  · simp [Instr.isCount]

theorem erase_decs (vs : List Var) : Plain.erase (vs.map .dec) = [] := by
  refine erase_counts fun x hx => ?_
  obtain ⟨v, -, rfl⟩ := mem_map.1 hx
  exact ⟨v, .inr rfl⟩

/-- Without its counts the code is what it was. -/
theorem erase_countCode (c : Facts) (out : BitSet) (t : Option Term) :
    ∀ {code : List Instr}, (∀ x ∈ code, x.isCount = false) →
      Plain.erase (code.foldr (consInstr c) (termSuffix c out t)).code = code := by
  intro code
  induction code with
  | nil =>
    refine fun _ => erase_counts fun x hx => ?_
    obtain ⟨v, -, rfl⟩ := termSuffix_code c out t x hx
    exact ⟨v, .inl rfl⟩
  | cons x code ih =>
    intro h
    obtain ⟨before, after, hcode, hbefore, hafter⟩ :=
      consInstr_code c x (code.foldr (consInstr c) (termSuffix c out t))
    have hx : Plain.erase [x] = [x] := filter_cons_of_pos (by simp [h x mem_cons_self])
    have hfront : Plain.erase before = [] := by
      refine erase_counts fun y hy => ?_
      obtain ⟨v, -, rfl⟩ := hbefore y hy
      exact ⟨v, .inl rfl⟩
    have hback : Plain.erase after = [] := by
      refine erase_counts fun y hy => ?_
      rcases hafter y hy with ⟨v, -, rfl⟩ | ⟨d, -, ⟨rfl, -⟩ | ⟨rfl, -⟩⟩
      · exact ⟨v, .inr rfl⟩
      · exact ⟨d, .inl rfl⟩
      · exact ⟨d, .inr rfl⟩
    rw [foldr_cons, hcode, append_cons, erase_append, erase_append, erase_append,
      hfront, hx, hback, ih fun y hy => h y (mem_cons_of_mem x hy)]
    rfl

/-- There are no counts before they are put in. -/
theorem isCount_of_lowered (hf : Valid .lowered f) (hblock : f.block? b = some block) :
    ∀ x ∈ block.code, x.isCount = false := by
  intro x hx
  have hs := hf.staged block (Array.mem_of_getElem? hblock) x hx
  cases x with
  | inc v => cases hs
  | dec v => cases hs
  | _ => rfl

/-- A function with its counts is the function, but for the counts. -/
theorem Counted.erases (h : Counted c l f g route front) : Plain.Erases route f g where
  params := h.routing.params
  entry := h.routing.entry
  start := h.valid.entry
  closure b hb dst func captures hx := by
    have hdef : dst ∈ f.defs := by
      obtain ⟨i, hi⟩ := Array.getElem?_of_mem hb
      exact Func.mem_defs_of_block hi (mem_append_right _ (mem_filterMap.2 ⟨_, hx, rfl⟩))
    rw [h.routing.typeOf_eq (h.valid.bound dst hdef)]
    rfl
  block b block hblock := by
    obtain ⟨block', hblock', hparams, hcode, hterm⟩ := h.block_eq hblock
    refine ⟨block', hblock', hparams, ?_, hterm⟩
    rw [hcode, erase_append, erase_append, erase_decs, erase_decs,
      erase_countCode _ _ _ (isCount_of_lowered h.valid hblock)]
    rfl
  edge b block t hblock ht := by
    rw [← Func.successors_eq hblock] at ht
    obtain ⟨target, htarget, -⟩ := h.edge_fits hblock ht
    refine ⟨target, htarget, ?_⟩
    by_cases hne : route b t = t
    · exact .inl hne
    · have hparams := h.params_of_hop ht hne htarget
      obtain ⟨args, hhop⟩ := h.routing.hop b t hne
      have hargs : args = [] := by
        refine eq_nil_of_length_eq_zero ?_
        rw [hhop.length _ (h.countBlocks_some htarget)]
        exact length_eq_zero_iff.2 hparams
      subst hargs
      exact .inr ⟨hparams, _, hhop.block, rfl, erase_decs _, rfl⟩

end Erase

-- ======== packages

/-- Functions by their names; of several with one name the last counts. -/
def byName (fs : List Func) : List (String × Func) := (fs.map fun f => (f.name, f)).reverse

/-- A function that is found by name has the name. -/
theorem mem_of_byName {fs : List Func} {name : String} {f : Func}
    (h : (byName fs).lookup name = some f) : f ∈ fs ∧ f.name = name := by
  obtain ⟨l₁, l₂, hl, -⟩ := lookup_eq_some_iff.1 h
  have hmem : (name, f) ∈ byName fs := by
    rw [hl]
    exact mem_append_right _ (.head _)
  obtain ⟨f', hf', heq⟩ := mem_map.1 (mem_reverse.1 hmem)
  cases heq
  exact ⟨hf', rfl⟩

/-- Functions that go with each other one for one are found by the same
names. -/
theorem lookup_byName {R : Func → Func → Prop} (hname : ∀ f g, R f g → g.name = f.name)
    {fs gs : List Func} (h : Forall₂ R fs gs) (name : String) :
    Rel R ((byName fs).lookup name) ((byName gs).lookup name) := by
  refine lookup_rel (forall₂_reverse_iff.2 ?_) name
  rw [forall₂_map_left_iff, forall₂_map_right_iff]
  exact h.imp fun f g hfg => ⟨(hname f g hfg).symm, hfg⟩

/-- A package of typed functions that pass the check and are called by the modes
of their parameters. -/
structure Package (Θ : Typing) (sigs : Signatures) (fs : List Func) : Prop where
  func : ∀ name f, (byName fs).lookup name = some f →
    f.Typed Θ ∧ Θ.funcs.lookup name = some ⟨f.params.map (·.type), f.result⟩
  host : ∀ name ft, (byName fs).lookup name = none → Θ.funcs.lookup name = some ft →
    Θ.HostFits ft name
  known : ∀ f ∈ fs, ∀ τ ∈ f.types, (Θ.pool.get? τ).isSome
  checked : ∀ f ∈ fs, f.check .lowered = .ok ()
  modes : ∀ f ∈ fs, sigs.find? f.name = some f.modes

/-- The functions of a package with its host are a typed program. -/
theorem Package.typed (hΘ : Θ.Coherent) (hfs : Package Θ sigs fs) :
    (Plain.Program.standard Θ.pool (byName fs)).Typed Θ :=
  Plain.Program.typed_standard hΘ hfs.func hfs.host

/-- What is known of a function when its counts are put in. -/
structure Origin where
  func : Func
  facts : Facts
  liveness : Liveness
  route : BlockId → BlockId → BlockId
  front : BlockId → List Var

/-- A function with counts comes from a function without. -/
structure Origin.Of (o : Origin) (cls : Classes) (sigs : Signatures) (f g : Func) : Prop where
  func : o.func = f
  cls : o.facts.cls = cls
  sigs : o.facts.sigs = sigs
  types : o.facts.types = f.types
  counted : Counted o.facts o.liveness o.func g o.route o.front

/-- Counts can be put into a function that passes the check. -/
theorem exists_origin {f : Func} (hf : f.check .lowered = .ok ()) (cls : Classes)
    (sigs : Signatures) :
    ∃ g, Count.insert f cls sigs = .ok g ∧ ∃ o : Origin, o.Of cls sigs f g := by
  have hv : Valid .lowered f := check_ok_iff.1 hf
  obtain ⟨c, l, hfacts, hcls, hsigs, htypes, hsolves, hinsert, -⟩ := insert_valid hv cls sigs
  have hk : KnowsAliases f c := by
    obtain ⟨d, hd, hspec⟩ := Borrow.derived_spec hv.nodup hv.bound hv.defined
    rw [factsOf, hd] at hfacts
    cases hfacts
    exact hspec
  obtain ⟨route, front, hcounted⟩ := exists_counted hv hk hsolves
  exact ⟨_, hinsert, ⟨f, c, l, route, front⟩, rfl, hcls, hsigs, htypes, hcounted⟩

section Package

variable {Θ : Typing} {cls : Classes} {sigs : Signatures} {fs gs : List Func}
  {o : Func → Origin}

/-- The functions of two packages go by the same names, and each of the second
comes from the one of the first. -/
def Annotated (cls : Classes) (sigs : Signatures) (fs gs : List Func) (o : Func → Origin) :
    Prop :=
  ∀ name, Option.Rel (fun f g => (o g).Of cls sigs f g) ((byName fs).lookup name)
    ((byName gs).lookup name)

/-- Counts can be put into all functions of a package. -/
theorem exists_annotated (h : ∀ f ∈ fs, f.check .lowered = .ok ()) (cls : Classes)
    (sigs : Signatures) : ∃ gs o, fs.mapM (Count.insert · cls sigs) = .ok gs ∧
      Annotated cls sigs fs gs o := by
  have hinsert := fun f hf => exists_origin (h f hf) cls sigs
  obtain ⟨gs, hgs⟩ := exists_mapM_ok fun f hf => ⟨_, (hinsert f hf).choose_spec.1⟩
  have hpairs : Forall₂ (fun f g => ∃ o : Origin, o.Of cls sigs f g) fs gs := by
    have hall := (forall₂_and_left (p := (· ∈ fs)) fs gs).2 ⟨fun f hf => hf, mapM_ok hgs⟩
    refine hall.imp ?_
    rintro f g ⟨hf, hfg⟩
    obtain ⟨g', hg', ho⟩ := hinsert f hf
    rw [hfg] at hg'
    rwa [Except.ok.inj hg']
  have hname : ∀ f g, (∃ o : Origin, o.Of cls sigs f g) → g.name = f.name := by
    rintro _ g ⟨o, rfl, -, -, -, hcounted⟩
    exact hcounted.routing.name
  -- a name leads to one function, so what it comes from can be told from its name
  have hchoice : ∀ g : Func, ∃ o : Origin, ∀ f, (byName fs).lookup g.name = some f →
      (∃ o : Origin, o.Of cls sigs f g) → o.Of cls sigs f g := by
    intro g
    by_cases hfound : ∃ f, (byName fs).lookup g.name = some f ∧ ∃ o : Origin, o.Of cls sigs f g
    · obtain ⟨f, hf, o, ho⟩ := hfound
      refine ⟨o, fun f' hf' _ => ?_⟩
      rwa [some.inj (hf'.symm.trans hf)]
    · exact ⟨⟨g, ⟨cls, sigs, g.types, .empty⟩, default, fun _ t => t, fun _ => []⟩,
        fun f hf ho => absurd ⟨f, hf, ho⟩ hfound⟩
  choose o ho using hchoice
  refine ⟨gs, o, hgs, fun name => ?_⟩
  have hrel := lookup_byName hname hpairs name
  cases hf : (byName fs).lookup name with
  | none =>
    rw [hf] at hrel
    generalize (byName gs).lookup name = found at hrel
    cases hrel
    exact .none
  | some f =>
    rw [hf] at hrel
    generalize (byName gs).lookup name = found at hrel
    cases hrel with
    | @some _ g hfg =>
      refine .some (ho g f ?_ hfg)
      rw [hname f g hfg, (mem_of_byName hf).2]
      exact hf

/-- A counted function comes from one of the same name. -/
theorem Annotated.found (h : Annotated cls sigs fs gs o) {name : String} {g : Func}
    (hg : (byName gs).lookup name = some g) :
    ∃ f, (byName fs).lookup name = some f ∧ (o g).Of cls sigs f g := by
  have hrel := h name
  rw [hg] at hrel
  generalize (byName fs).lookup name = found at hrel
  cases hrel with
  | some hfg => exact ⟨_, rfl, hfg⟩

/-- A package with counts is the package, but for the counts. -/
theorem Annotated.erases (h : Annotated cls sigs fs gs o) (pool : Pool) :
    Plain.Program.Erases (.standard pool (byName fs)) (.standard pool (byName gs)) where
  pool := rfl
  host := rfl
  none name hf := by
    have hrel := h name
    rw [show (byName fs).lookup name = none from hf] at hrel
    generalize (byName gs).lookup name = found at hrel
    cases hrel
    rfl
  some name f hf := by
    have hrel := h name
    rw [show (byName fs).lookup name = some f from hf] at hrel
    generalize (byName gs).lookup name = found at hrel
    cases hrel with
    | @some _ g hfg =>
      refine ⟨g, (o g).route, rfl, ?_⟩
      rw [← hfg.func]
      exact hfg.counted.erases

/-- What the variables of a function with counts are taken for. -/
abbrev Origin.roles (o : Origin) : Roles := rolesOf o.facts

/-- The plan that a function with counts follows. -/
noncomputable abbrev Origin.plan (o : Origin) (g : Func) : Plan :=
  planOf o.facts o.liveness o.func g o.route o.front

/-- There is a plan for every function of a package with counts. -/
theorem Annotated.planned (h : Annotated cls sigs fs gs o) (hfs : Package Θ sigs fs) {env : Env}
    (hdrops : env.drops = none) (hsigs : env.sigs = sigs) (hfuncs : env.funcs = byName gs) :
    Planned env (fun g => (o g).roles) fun g => (o g).plan g where
  drops := hdrops
  modes name g hg := by
    rw [hfuncs] at hg
    obtain ⟨f, hf, hfg⟩ := h.found hg
    obtain ⟨hmem, rfl⟩ := mem_of_byName hf
    rw [hsigs, hfs.modes f hmem, Func.modes, Func.modes, hfg.counted.routing.params, ← hfg.func]
    rfl
  follows name g hg := by
    rw [hfuncs] at hg
    obtain ⟨f, -, hfg⟩ := h.found hg
    rw [hsigs, ← hfg.sigs]
    exact hfg.counted.follows

-- ======== typing

open Plain (Along)

/-- The host is asked for the same with counts as without. -/
theorem enterAsks_erases {P Q : Plain.Program} (hP : P.Erases Q)
    {name : String} {ts : List Machine.Tree} (h : Plain.EnterAsks P name ts) :
    Plain.EnterAsks Q name ts := by
  intro hnone
  refine h (eq_none_iff_forall_ne_some.2 fun f hf => ?_)
  obtain ⟨g, -, hg, -⟩ := hP.some name f hf
  rw [hnone] at hg
  cases hg

/-- What an instruction looks at is there with counts as it is without. -/
theorem asks_along {P Q : Plain.Program} (hP : P.Erases Q) {fr gr : Plain.Frame}
    (hvars : gr.vars = fr.vars) {x : Instr} (h : Plain.Asks P fr x) : Plain.Asks Q gr x := by
  have hget : ∀ vs, gr.getAll vs = fr.getAll vs := by
    intro vs
    unfold Plain.Frame.getAll
    rw [hvars]
  cases x with
  | prim dst op args =>
    intro ts hts
    exact h ts (hget args ▸ hts)
  | call dst func args tail =>
    intro ts hts
    exact enterAsks_erases hP (h ts (hget args ▸ hts))
  | callClosure dst callee args =>
    intro t ts ht hts
    obtain ⟨ty, v, s, func, n, hl, hasks⟩ := h t ts (hvars ▸ ht) (hget args ▸ hts)
    exact ⟨ty, v, s, func, n, hl, enterAsks_erases hP hasks⟩
  | construct dst type variant args =>
    intro d hd hkind hboxed
    rw [hP.pool] at hd hboxed
    exact h d hd hkind hboxed
  | _ => trivial

/-- A run with counts that goes along with a typed run without. -/
def Good (Θ : Typing) (fs gs : List Func) (d : Plain.Config) : Prop :=
  ∃ c : Plain.Config,
    c.Along (.standard Θ.pool (byName fs)) (.standard Θ.pool (byName gs)) d ∧ c.Typed Θ

section

variable (h : Annotated cls sigs fs gs o) (hΘ : Θ.Coherent)
include h hΘ

/-- In a good run variables that are not counted hold no references, and what is
looked at is there. -/
theorem Good.fine
    (hcls : Classes.ofPool Θ.pool = .ok cls) (hfs : Package Θ sigs fs) {env : Env}
    (hpool : env.pool = Θ.pool) (hfuncs : env.funcs = byName gs) {d : Plain.Config}
    (hd : Good Θ fs gs d) : Fine env (fun g => (o g).roles) d := by
  obtain ⟨c, halong, htyped⟩ := hd
  have herases := h.erases Θ.pool
  have hvars := halong.top.vars
  refine ⟨fun v t hv ht => ?_, fun x rest hcode => ?_, fun t hcode hterm => ?_⟩
  · obtain ⟨route, hdrawn⟩ := halong.top.drawn
    obtain ⟨name, hf, hg⟩ := hdrawn.name
    obtain ⟨f, hf', hfg⟩ := h.found hg
    cases hf'.symm.trans hf
    rw [hvars] at ht
    obtain ⟨τ, hτ, hholds⟩ := htyped.top.vars v t ht
    have hmem : τ ∈ c.top.func.types := Array.mem_of_getElem? hτ
    obtain ⟨τd, hτd⟩ := isSome_iff_exists.1 (hfs.known _ (mem_of_byName hf).1 τ hmem)
    have hcount : cls.needsCount τ = false := by
      have hv' : (o d.top.func).facts.cls.needsCount
          ((o d.top.func).facts.types.getD v .none) = false := hv
      rw [hfg.cls, hfg.types, Array.getD_eq_getD_getElem?] at hv'
      have hτ' : c.top.func.types[v]? = some τ := hτ
      rwa [hτ'] at hv'
    exact hholds.bare (Classes.scalar_of_not_counted hcls hτd hcount)
  · rw [hpool, hfuncs]
    by_cases hx : x.isCount = true
    · cases x with
      | inc v => trivial
      | dec v => trivial
      | _ => cases hx
    · rw [Bool.not_eq_true] at hx
      have hmem : x ∈ c.top.code := by
        have herase : Plain.erase d.top.code = x :: Plain.erase rest := by
          rw [hcode]
          exact filter_cons_of_pos (by simp [hx])
        cases halong.top with
        | inside _ _ _ _ hsame _ =>
          rw [← hsame, herase]
          exact .head _
        | between _ _ _ _ _ hnone _ =>
          rw [herase] at hnone
          cases hnone
      exact asks_along herases hvars
        (Plain.asks_of_typed hΘ (hfs.typed hΘ) htyped.top (htyped.top.code x hmem))
  · cases halong.top with
    | inside _ _ _ _ _ hsame =>
      rw [hterm] at hsame
      obtain ⟨t', ht', rfl⟩ := map_eq_some_iff.1 hsame.symm
      have hasks := Plain.termAsks_of_typed hΘ htyped.top (htyped.top.term t' ht')
      cases t' with
      | branch v a b => exact fun u hu => hasks u (hvars ▸ hu)
      | switch v cases default => exact fun u hu => hasks u (hvars ▸ hu)
      | _ => trivial
    | between _ _ _ _ _ _ hjump =>
      rw [hterm] at hjump
      cases hjump
      trivial

/-- A step of the program without counts keeps a state good. -/
theorem Good.step (hfs : Package Θ sigs fs)
    {d d' : Plain.Config} (hd : Good Θ fs gs d)
    (hstep : Plain.step (.standard Θ.pool (byName gs)) d = some (.running d')) :
    Good Θ fs gs d' := by
  obtain ⟨c, halong, htyped⟩ := hd
  rcases Plain.step_along (h.erases Θ.pool) halong hstep with ⟨d'', heq, halong'⟩ | ⟨pr, hpr, hgo⟩
  · cases heq
    exact ⟨c, halong', htyped⟩
  · cases hgo with
    | running halong' => exact ⟨_, halong', Plain.step_typed hΘ (hfs.typed hΘ) htyped hpr⟩

/-- A call with arguments of the right types starts a good run. -/
theorem Good.start (hfs : Package Θ sigs fs)
    {name : String} {ft : FuncType} (hft : Θ.funcs.lookup name = some ft)
    {ts : List Machine.Tree} (hts : Forall₂ Θ.Holds ft.params ts) {pf : Plain.Frame}
    (henter : Plain.enter (.standard Θ.pool (byName gs)) name ts = some (.frame pf)) :
    Good Θ fs gs ⟨pf, []⟩ := by
  obtain ⟨e, he, halong⟩ := Plain.enter_along (h.erases Θ.pool) henter
  cases halong with
  | @frame fr _ hfr =>
    have htyped : fr.Typed Θ ∧ _ := Plain.enter_typed (hfs.typed hΘ) hft hts he
    exact ⟨⟨fr, []⟩, ⟨hfr, .nil⟩, htyped.1, .nil⟩

end

-- ======== calls

/-- Along a run the heap evolves. -/
theorem Visits.evolves {env : Env} {steps : Nat} {c c' : Machine.Config} {w w' : World}
    (h : Visits env steps c w c' w') : ∃ m, w.heap.Evolves m w'.heap := by
  induction h with
  | here => exact ⟨0, .refl⟩
  | @later _ c _ _ w _ _ hstep _ ih =>
    obtain ⟨m, hm⟩ := @Machine.Evolving.step env c w
    obtain ⟨m', hm'⟩ := ih
    rw [hstep] at hm
    exact ⟨m + m', hm.trans hm'⟩

/-- Whatever a call does to the heap comes down to steps of the heap. -/
theorem CallVisits.evolves {env : Env} {steps : Nat} {name : String} {args : List Value}
    {w w' : World} (h : CallVisits env steps name args w w') : ∃ m, w.heap.Evolves m w'.heap := by
  cases h with
  | start => exact ⟨0, .refl⟩
  | inside henter hv =>
    obtain ⟨m, hm⟩ := @Machine.Evolving.enter env 0 name args w
    obtain ⟨m', hm'⟩ := hv.evolves
    rw [henter] at hm
    exact ⟨m + m', hm.trans hm'⟩

/-- On a heap that has asked for some memory already, a call does not run out of
addresses within a number of steps. -/
def CallFits (env : Env) (steps : Nat) (name : String) (args : List Value) (asked : Nat)
    (w : World) : Prop :=
  ∀ w', CallVisits env steps name args w w' →
    0x1000 + (asked + w.heap.memory w'.heap) + 16 ≤ 2 ^ 63

/-- A call that fits in memory has room at each step. -/
theorem CallFits.hasRoom {env : Env} {steps : Nat} {name : String} {args : List Value}
    {asked : Nat} {w w' : World} (h : CallFits env steps name args asked w)
    (hl : w.heap.Laid asked) (hv : CallVisits env steps name args w w') : w'.heap.HasRoom := by
  have hfits := h w' hv
  obtain ⟨m, hm⟩ := hv.evolves
  obtain ⟨hl', -⟩ := hl.evolves hm.memory (by omega)
  exact hl'.fresh (by decide) hfits

theorem bind_refs (vs : List Value) : (vs : Multiset Value).bind Value.refs = refsAll vs := by
  induction vs with
  | nil => rfl
  | cons v vs ih => rw [← Multiset.cons_coe, Multiset.cons_bind, ih, Value.refsAll_cons]

/-- Counts can be put into a package of typed functions, and then calls are
safe: on a heap whose objects stand one behind the other and whose accounts are
in order for the arguments and any other values, a call with arguments of the
right types that does not run out of addresses never asks for what is not
there, and leaves the accounts in order for its result, the arguments that it
has borrowed, and the other values. The result denotes what the functions mean
without counts. -/
theorem callFor_counted (hΘ : Θ.Coherent) (hcls : Classes.ofPool Θ.pool = .ok cls)
    (hfs : Package Θ sigs fs) :
    ∃ gs, fs.mapM (Count.insert · cls sigs) = .ok gs ∧
      ∀ env : Env, env.pool = Θ.pool → env.funcs = byName gs → env.sigs = sigs →
        env.drops = none → ∀ (steps : Nat) (name : String) (ft : FuncType) (args : List Value)
          (rest : Multiset Value) (asked : Nat) (w : World), Θ.funcs.lookup name = some ft →
        List.Forall₂ Θ.Holds ft.params (args.map (treeOf Θ.pool w.heap)) →
        w.heap.ExactFor (args + rest) → w.heap.Laid asked → CallFits env steps name args asked w →
        match (callFor env steps name args).run.run w with
        | (.error e, _) => ∀ p, e.cause ≠ .heap p
        | (.ok v, w') => w'.heap.ExactFor (v ::ₘ (lent (sigs.find? name) 0 args + rest)) ∧
          Plain.Evaluates (.standard Θ.pool (byName fs)) name (args.map (treeOf Θ.pool w.heap))
            (treeOf Θ.pool w'.heap v) := by
  obtain ⟨gs, o, hgs, h⟩ := exists_annotated hfs.checked cls sigs
  refine ⟨gs, hgs, ?_⟩
  intro env hpool hfuncs hsigs hdrops steps name ft args rest asked w hft hargs hx hlaid hfits
  obtain ⟨pool, funcs, sigs', drops, hasOutput, maxDepth⟩ := env
  obtain rfl : pool = Θ.pool := hpool
  obtain rfl : funcs = byName gs := hfuncs
  obtain rfl : sigs' = sigs := hsigs
  obtain rfl : drops = none := hdrops
  have herases := h.erases Θ.pool
  have hkeeper : Keeper ⟨Θ.pool, byName gs, sigs', none, hasOutput, maxDepth⟩
      (fun g => (o g).roles) (Good Θ fs gs) :=
    ⟨fun pc hpc => hpc.fine h hΘ hcls hfs rfl rfl, fun pc pc' hpc hstep => hpc.step h hΘ hfs hstep⟩
  -- what is held besides the arguments that are handed over
  have hexact : w.heap.Exact (refsAll (handed (sigs'.find? name) 0 args) +
      (refsAll (lent (sigs'.find? name) 0 args) + rest.bind Value.refs)) := by
    have hcounts := Machine.Heap.exactFor_iff.1 hx
    rw [Multiset.add_bind, bind_refs, refsAll_handed_lent (sigs'.find? name) 0,
      add_assoc] at hcounts
    exact ⟨_, hcounts⟩
  have hsafe := callFor_safe (h.planned hfs rfl rfl rfl) hkeeper steps
    (fun _ hv => hfits.hasRoom hlaid hv) hexact
    (fun v hv p hp => .root (Multiset.mem_add.2 (.inl (Value.mem_refsAll.2 ⟨v, hv, hp⟩))))
    (enterAsks_erases herases (Plain.enter_asks (hfs.typed hΘ) hft hargs))
    (fun pf hpf => Good.start h hΘ hfs hft hargs hpf)
  rcases hrun : (callFor _ steps name args).run.run w with ⟨e | v, w'⟩
  · exact hsafe.of_error hrun
  · obtain ⟨⟨live, hcounts⟩, hplain⟩ := hsafe.of_ok hrun
    refine ⟨?_, hplain.erases herases⟩
    rw [← bind_refs, ← Multiset.add_bind, add_comm, ← Multiset.cons_bind] at hcounts
    exact hcounts.exactFor

end Package

-- ======== one string, held twice

section Twice

open Machine

/-- A pool with a record of two strings, number 7. -/
def pairPool : Pool where
  types := Pool.initial.types.push (.record "Pair" (some [⟨"a", .str⟩, ⟨"b", .str⟩]))
  names := ("Pair", 7) :: Pool.initial.names
  forms := []

/-- A function that puts its argument into a record twice. -/
def twice : Func where
  name := "twice"
  params := [⟨0, .str, .owned⟩]
  result := 7
  types := #[.str, 7]
  entry := 0
  blocks := #[⟨0, [], [.construct 1 7 0 [0, 0]], some (.ret 1)⟩]

def twiceBlock : Block := ⟨0, [], [.inc 0, .construct 1 7 0 [0, 0]], some (.ret 1)⟩

/-- The function with its counts: the argument is stored twice. -/
def twiceCounted : Func := { twice with blocks := #[twiceBlock] }

/-- A string and a pair are counted. -/
def pairClasses : Classes :=
  #[.scalar, .scalar, .scalar, .scalar, .scalar, .scalar, .definiteRef, .definiteRef]

def twiceSigs : Signatures := [("twice", [.owned])]

def pairTyping : Typing where
  pool := pairPool
  funcs := [("twice", ⟨[.str], 7⟩)]
  agree := (· = ·)
  agree_refl _ := rfl
  builtins i b hb := by
    have hi : i < 7 := (List.getElem?_eq_some_iff.1 hb).1
    interval_cases i <;> (obtain rfl := some.inj hb; rfl)

/-- The one function is a package. -/
theorem package_twice : Package pairTyping twiceSigs [twice] := by
  have hfound : ∀ name f, (byName [twice]).lookup name = some f → f = twice ∧ name = "twice" := by
    intro name f hf
    obtain ⟨hmem, rfl⟩ := mem_of_byName hf
    obtain rfl := mem_singleton.1 hmem
    exact ⟨rfl, rfl⟩
  refine ⟨?_, ?_, ?_, ?_, ?_⟩
  · intro name f hf
    obtain ⟨rfl, rfl⟩ := hfound name f hf
    have hstr : twice.VarFits pairTyping 0 .str := ⟨.str, rfl, pairTyping.fits_refl _⟩
    refine ⟨⟨?_, ?_⟩, rfl⟩
    · intro p hp
      obtain rfl := mem_singleton.1 hp
      rfl
    · intro b hb
      obtain rfl : b = ⟨0, [], [.construct 1 7 0 [0, 0]], some (.ret 1)⟩ := by
        simpa [twice] using hb
      refine ⟨fun x hx => ?_, fun t ht => ?_⟩
      · obtain rfl := mem_singleton.1 hx
        exact ⟨rfl, [.str, .str], rfl, .cons hstr (.cons hstr .nil)⟩
      · cases ht
        exact ⟨7, rfl, pairTyping.fits_refl _⟩
  · intro name ft hnone hft
    have hne : (name == "twice") = false := by
      by_contra hname
      obtain rfl : name = "twice" := by simpa using hname
      cases hnone
    simp [pairTyping, lookup_cons, hne] at hft
  · intro f hf τ hτ
    obtain rfl := mem_singleton.1 hf
    obtain rfl | rfl : τ = .str ∨ τ = 7 := by simpa [twice] using hτ
    · rfl
    · rfl
  · intro f hf
    obtain rfl := mem_singleton.1 hf
    decide +kernel
  · intro f hf
    obtain rfl := mem_singleton.1 hf
    rfl

/-- A heap with one string, to which there are three references. -/
def oneString : Heap where
  cells := .ofList [(0x1008, Heap.node 3 [])]
  next := 0x1018
  allocs := 1
  frees := 0
  bytes := 16

theorem cell_oneString (p : Address) :
    oneString.cell? p = if p = 0x1008 then some (Heap.node 3 []) else none := by
  unfold Heap.cell? oneString
  simp only [Std.HashMap.ofList_cons, Std.HashMap.insertMany_nil, Std.HashMap.getElem?_insert,
    beq_iff_eq]
  by_cases h : p = 0x1008
  · simp [h]
  · simp [h, Ne.symm h]

theorem find_oneString : oneString.find 0x1008 = .ok (Heap.node 3 []) := by
  unfold Heap.find
  rw [cell_oneString, if_pos rfl]
  rfl

theorem live_oneString {p : Address} : p ∈ ({0x1008} : Finset Address) ↔ oneString.Live p := by
  refine ⟨fun hp => ?_, fun hp => ?_⟩
  · obtain rfl := Finset.mem_singleton.1 hp
    exact Heap.live_of_find find_oneString
  · rw [Finset.mem_singleton]
    by_contra hno
    refine Heap.not_live_of_vacant ?_ hp
    rw [cell_oneString, if_neg hno]

/-- The count of the string is exact for three references. -/
theorem oneString_exactFor :
    oneString.ExactFor (([.ref 0x1008] : List Value) + {.ref 0x1008, .ref 0x1008}) := by
  refine @Heap.Counts.exactFor _ _ {0x1008} ⟨fun p => live_oneString, fun p => ?_⟩
  rw [Finset.sum_singleton, Heap.held_of_find find_oneString, Multiset.add_bind, bind_refs]
  unfold Heap.countAt Heap.find
  rw [cell_oneString]
  by_cases h : p = 0x1008
  · simp [h, Heap.node]
  · simp [h, Heap.node]

/-- The string is laid out in twenty-four bytes. -/
theorem oneString_laid : oneString.Laid 24 where
  all := by simp [oneString, Std.HashMap.size_insert]
  low := by decide
  high := by decide
  cell p c hc := by
    rw [cell_oneString] at hc
    split at hc
    · cases hc
      exact Cell.sane_of_pos rfl (by decide)
    · cases hc
  place p c hc := by
    rw [cell_oneString] at hc
    split at hc
    · next hp =>
      cases hc
      subst hp
      decide
    · cases hc
  live := by
    have hset : oneString.liveSet = {0x1008} := by
      ext p
      rw [Heap.mem_liveSet, live_oneString]
    rw [hset]
    rfl
  apart p q c d hc hd hne := by
    rw [cell_oneString] at hc hd
    split at hc
    · split at hd
      · next hp hq => exact absurd (hp.trans hq.symm) hne
      · cases hd
    · cases hc

/-- A world with that heap. -/
def oneWorld : World := { World.initial with heap := oneString }

def twiceEnv : Env := ⟨pairPool, byName [twiceCounted], twiceSigs, none, true, 10⟩

/-- The function under way, with the code that is left. -/
def twiceFrame (code : List Instr) (vars : Array (Option Value)) : Frame :=
  ⟨twiceCounted, twiceBlock, code, vars⟩

/-- The world after some steps, with a heap. -/
def twiceWorld (steps : Nat) (h : Heap) : World :=
  { oneWorld with heap := h, stats := { oneWorld.stats with calls := 1, steps := steps } }

/-- The string has one more reference. -/
def oneMore : Heap := oneString.setCell 0x1008 (Heap.node 3 []).more

def pairObject : Object := ⟨7, 0, [.ref 0x1008, .ref 0x1008], [], "", 0, false⟩

/-- And it is held by a record. -/
def heldTwice : Heap := (oneMore.allocate 24 8 pairObject).2

/-- The call enters the function. -/
theorem enter_twice : (enter twiceEnv 0 "twice" [.ref 0x1008]).run.run oneWorld =
    (.ok (.frame (twiceFrame twiceBlock.code #[some (.ref 0x1008), none])),
      twiceWorld 0 oneString) := rfl

/-- First the string is counted up. -/
theorem step_inc : (step twiceEnv
      ⟨twiceFrame twiceBlock.code #[some (.ref 0x1008), none], []⟩).run.run
        (twiceWorld 0 oneString) =
    (.ok (.running ⟨twiceFrame [.construct 1 7 0 [0, 0]] #[some (.ref 0x1008), none], []⟩),
      twiceWorld 1 oneMore) := by
  have hretain : (retain (.ref 0x1008)).run.run (twiceWorld 1 oneString) =
      (.ok (), twiceWorld 1 oneMore) := by
    rw [retain, run_bind, run_cellAt,
      show (twiceWorld 1 oneString).heap.find 0x1008 = _ from find_oneString]
    rfl
  show (inContext _ ((retain (.ref 0x1008) >>= fun _ => (pure _ : Run Config)) >>= fun c =>
    (pure (.running c) : Run Progress))).run.run (twiceWorld 1 oneString) = _
  rw [run_inContext, run_bind, run_bind, hretain]
  rfl

/-- Then the pair is allocated. -/
theorem step_construct : (step twiceEnv
      ⟨twiceFrame [.construct 1 7 0 [0, 0]] #[some (.ref 0x1008), none], []⟩).run.run
        (twiceWorld 1 oneMore) =
    (.ok (.running ⟨twiceFrame [] #[some (.ref 0x1008), some (.ref 0x1020)], []⟩),
      twiceWorld 2 heldTwice) := rfl

theorem oneMore_evolves : oneString.Evolves 0 oneMore := (Heap.Step.more find_oneString).evolves

/-- The pair asks for forty bytes. -/
theorem heldTwice_evolves : oneString.Evolves 40 heldTwice :=
  oneMore_evolves.trans (@Heap.Step.allocate oneMore 8 (by decide) 24 pairObject).evolves

/-- The call takes a word ahead of the record and three words for it. -/
theorem callFits_twice : CallFits twiceEnv 5 "twice" [.ref 0x1008] 24 oneWorld := by
  have hfits {m : Nat} {h : Heap} (he : oneString.Evolves m h) (hm : m ≤ 40) :
      0x1000 + (24 + oneString.memory h) + 16 ≤ 2 ^ 63 := by
    have := he.memory_le
    omega
  intro w' hv
  cases hv with
  | start => exact hfits .refl (by decide)
  | inside henter hv =>
    obtain ⟨hfr, rfl⟩ := Prod.mk.inj (enter_twice.symm.trans henter)
    cases hfr
    cases hv with
    | here => exact hfits .refl (by decide)
    | later hstep hv =>
      obtain ⟨hc, rfl⟩ := Prod.mk.inj (step_inc.symm.trans hstep)
      cases hc
      cases hv with
      | here => exact hfits oneMore_evolves (by decide)
      | later hstep hv =>
        obtain ⟨hc, rfl⟩ := Prod.mk.inj (step_construct.symm.trans hstep)
        cases hc
        cases hv with
        | here => exact hfits heldTwice_evolves le_rfl
        | later hend _ => cases hend

/-- A string is put into a new record twice: it is counted up once, and then held
by the record and by the two references that were not handed over. -/
theorem callFor_twice :
    ∃ gs, [twice].mapM (Count.insert · pairClasses twiceSigs) = .ok gs ∧
      oneString.ExactFor (([.ref 0x1008] : List Value) + {.ref 0x1008, .ref 0x1008}) ∧
      oneString.Laid 24 ∧
      CallFits ⟨pairPool, byName gs, twiceSigs, none, true, 10⟩ 5 "twice" [.ref 0x1008] 24
        oneWorld ∧
      ∃ w', (callFor ⟨pairPool, byName gs, twiceSigs, none, true, 10⟩ 5 "twice"
          [.ref 0x1008]).run.run oneWorld = (.ok (.ref 0x1020), w') ∧
        w'.heap.allocs = oneString.allocs + 1 ∧
        w'.heap.ExactFor {.ref 0x1020, .ref 0x1008, .ref 0x1008} ∧
        Plain.Evaluates (.standard pairPool (byName [twice])) "twice"
          ([.ref 0x1008].map (treeOf pairPool oneString))
          (treeOf pairPool w'.heap (.ref 0x1020)) := by
  obtain ⟨gs, hgs, h⟩ := @callFor_counted pairTyping pairClasses twiceSigs [twice]
    (fun a b h => .inl h) rfl package_twice
  have hcounted : [twice].mapM (Count.insert · pairClasses twiceSigs) = .ok [twiceCounted] := by
    cbv
  obtain rfl := Except.ok.inj (hgs.symm.trans hcounted)
  have hholds : pairTyping.Holds .str (treeOf pairPool oneString (.ref 0x1008)) := by
    rw [Typing.holds_iff (d := .builtin .str) rfl, treeOf_ref (Heap.obj_of_find find_oneString)]
    exact ⟨_, _, _, rfl⟩
  have hrun : (callFor twiceEnv 5 "twice" [.ref 0x1008]).run.run oneWorld =
      (.ok (.ref 0x1020), twiceWorld 2 heldTwice) := by
    show runFor twiceEnv 5 ⟨twiceFrame twiceBlock.code #[some (.ref 0x1008), none], []⟩
      (twiceWorld 0 oneString) = _
    rw [runFor, step_inc]
    dsimp only
    rw [runFor, step_construct]
    rfl
  have hsound := h twiceEnv rfl rfl rfl rfl 5 "twice" ⟨[.str], 7⟩ [.ref 0x1008]
    {Value.ref 0x1008, Value.ref 0x1008} 24 oneWorld rfl (.cons hholds .nil) oneString_exactFor
    oneString_laid callFits_twice
  rw [hrun] at hsound
  exact ⟨_, hgs, oneString_exactFor, oneString_laid, callFits_twice, _, hrun, rfl, hsound⟩

end Twice

end RefCount.Ownership
