/-
Counts mean nothing without a heap. A function with counts in its code, and
with blocks of counts on some of its edges, runs on trees like the function
without: whatever the first comes to, the second comes to as well
(`runFor_erases`).

# The argument

The two runs go along with each other, variable by variable. A step that counts,
and the jump at the end of a block on an edge, are steps of one run only; the
other waits. All other steps are the same in both, but that an edge may lead to
the block on it. That block hands nothing over and leads where the edge led, so
the run that has no such block is there already.
-/
import Mathlib
import RefCount.Proofs.Count.Edges
import RefCount.Proofs.Plain.Machine

namespace RefCount.Plain

open Ir List Option
open Machine (Tree switchTarget)

-- ======== functions

/-- Code without its counts. -/
def erase (code : List Instr) : List Instr := code.filter (!·.isCount)

/-- A function is another one with counts: in its blocks, and in blocks on
edges. An edge from one block to another leads where `route` says. -/
structure Erases (route : BlockId → BlockId → BlockId) (f g : Func) : Prop where
  params : g.params = f.params
  entry : g.entry = f.entry
  start : ∃ block, f.block? f.entry = some block
  closure : ∀ b ∈ f.blocks, ∀ dst func captures, .closure dst func captures ∈ b.code →
    g.typeOf dst = f.typeOf dst
  block : ∀ b block, f.block? b = some block → ∃ block', g.block? b = some block' ∧
    block'.params = block.params ∧ erase block'.code = block.code ∧
    block'.term = block.term.map (Term.reroute (route b))
  edge : ∀ b block t, f.block? b = some block → t ∈ block.successors →
    ∃ target, f.block? t = some target ∧ (route b t = t ∨ target.params = [] ∧
      ∃ hop, g.block? (route b t) = some hop ∧ hop.params = [] ∧ erase hop.code = [] ∧
        hop.term = some (.jump (some t) []))

/-- The functions of a program are those of another one with counts. -/
structure Program.Erases (P Q : Program) : Prop where
  pool : Q.pool = P.pool
  host : Q.host = P.host
  none : ∀ name, P.funcs.lookup name = none → Q.funcs.lookup name = none
  some : ∀ name f, P.funcs.lookup name = some f →
    ∃ g route, Q.funcs.lookup name = some g ∧ Plain.Erases route f g

-- ======== frames

/-- A function of one program and the function of the other under its name. -/
structure Drawn (P Q : Program) (route : BlockId → BlockId → BlockId) (f g : Func) : Prop
    extends Erases route f g where
  name : ∃ name, P.funcs.lookup name = some f ∧ Q.funcs.lookup name = some g

/-- A frame goes along with a frame with counts: in the same place of the same
block, or at the start of a block while the other is still on the edge to it. -/
inductive Along (P Q : Program) (fr gr : Frame) : Prop
  | inside {route : BlockId → BlockId → BlockId} {b : BlockId}
      (hfunc : Drawn P Q route fr.func gr.func) (hvars : gr.vars = fr.vars)
      (hblock : fr.func.block? b = some fr.block) (hsub : fr.code ⊆ fr.block.code)
      (hcode : erase gr.code = fr.code)
      (hterm : gr.block.term = fr.block.term.map (Term.reroute (route b)))
  | between {route : BlockId → BlockId → BlockId} {t : BlockId}
      (hfunc : Drawn P Q route fr.func gr.func) (hvars : gr.vars = fr.vars)
      (hblock : fr.func.block? t = some fr.block) (hparams : fr.block.params = [])
      (hstart : fr.code = fr.block.code) (hcode : erase gr.code = [])
      (hterm : gr.block.term = some (.jump (some t) []))

variable {P Q : Program} {fr gr : Frame} {c d : Config}

theorem Along.vars (h : Along P Q fr gr) : gr.vars = fr.vars := by
  cases h with
  | inside _ hvars => exact hvars
  | between _ hvars => exact hvars

theorem Along.drawn (h : Along P Q fr gr) : ∃ route, Drawn P Q route fr.func gr.func := by
  cases h with
  | inside hfunc => exact ⟨_, hfunc⟩
  | between hfunc => exact ⟨_, hfunc⟩

/-- Frames go along with each other after the same assignment. -/
theorem Along.assign (h : Along P Q fr gr) (v : Var) (t : Tree) :
    Along P Q (fr.assign v t) (gr.assign v t) := by
  have hvars : (gr.assign v t).vars = (fr.assign v t).vars := by
    show Function.update gr.vars v (some t) = Function.update fr.vars v (some t)
    rw [h.vars]
  cases h with
  | inside hfunc _ hblock hsub hcode hterm => exact .inside hfunc hvars hblock hsub hcode hterm
  | between hfunc _ hblock hparams hstart hcode hterm =>
    exact .between hfunc hvars hblock hparams hstart hcode hterm

/-- Frames with the same variables assign the same. -/
theorem assignAll_along : ∀ {vs : List Var} {ts : List Tree} {fr gr gr' : Frame},
    gr.vars = fr.vars → gr.assignAll vs ts = some gr' →
    ∃ vars, fr.assignAll vs ts = some { fr with vars } ∧ gr' = { gr with vars } := by
  intro vs
  induction vs with
  | nil =>
    intro ts fr gr gr' hvars h
    cases h
    exact ⟨fr.vars, rfl, by rw [← hvars]⟩
  | cons v vs ih =>
    intro ts fr gr gr' hvars h
    cases ts with
    | nil => cases h
    | cons t ts =>
      have hassign : (gr.assign v t).vars = (fr.assign v t).vars := by
        show Function.update gr.vars v (some t) = Function.update fr.vars v (some t)
        rw [hvars]
      obtain ⟨vars, hfr, rfl⟩ := ih hassign h
      exact ⟨vars, hfr, rfl⟩

variable {route : BlockId → BlockId → BlockId}

/-- Frames at the starts of the same block go along with each other. -/
theorem along_start (hfunc : Drawn P Q route fr.func gr.func)
    {b : BlockId} {block block' : Block} (hb : fr.func.block? b = some block)
    (hb' : gr.func.block? b = some block') (vars : Var → Option Tree) :
    Along P Q { fr with block, code := block.code, vars }
      { gr with block := block', code := block'.code, vars } := by
  obtain ⟨block'', hsome, -, hcode, hterm⟩ := hfunc.block b block hb
  cases hb'.symm.trans hsome
  exact .inside hfunc rfl hb (Subset.refl _) hcode hterm

/-- An edge leads to blocks that take the same, and to frames that go along with
each other once they have assigned the same. -/
theorem goTo_along (hfunc : Drawn P Q route fr.func gr.func)
    (hvars : gr.vars = fr.vars) {b t : BlockId} {block : Block}
    (hblock : fr.func.block? b = some block) (ht : t ∈ block.successors) {gr' : Frame}
    (hgo : gr.goTo (some (route b t)) = some gr') :
    ∃ fr', fr.goTo (some t) = some fr' ∧ gr'.vars = fr'.vars ∧ gr'.block.params = fr'.block.params ∧
      ∀ vars, Along P Q { fr' with vars } { gr' with vars } := by
  obtain ⟨target, htarget, hroute⟩ := hfunc.edge b block t hblock ht
  obtain ⟨block', hblock', rfl⟩ := map_eq_some_iff.1 hgo
  rw [bind_some] at hblock'
  refine ⟨{ fr with block := target, code := target.code }, ?_, hvars, ?_⟩
  · unfold Frame.goTo
    rw [bind_some, htarget]
    rfl
  · rcases hroute with hsame | ⟨hparams, hop, hhop, hhopParams, hcode, hterm⟩
    · rw [hsame] at hblock'
      obtain ⟨block'', hsome, hparams, -, -⟩ := hfunc.block t target htarget
      cases hblock'.symm.trans hsome
      exact ⟨hparams, along_start hfunc htarget hblock'⟩
    · cases hblock'.symm.trans hhop
      exact ⟨hhopParams.trans hparams.symm,
        fun vars => .between hfunc rfl htarget hparams rfl hcode hterm⟩

-- ======== calls

/-- Configurations go along with each other. -/
structure Config.Along (P Q : Program) (c d : Config) : Prop where
  top : Plain.Along P Q c.top d.top
  callers : List.Forall₂ (fun p q => Plain.Along P Q p.1 q.1 ∧ q.2 = p.2) c.callers d.callers

/-- What calls lead to goes along. -/
inductive Entered.Along (P Q : Program) : Entered → Entered → Prop
  | result {t : Tree} : Entered.Along P Q (.result t) (.result t)
  | frame {fr gr : Frame} (h : Plain.Along P Q fr gr) : Entered.Along P Q (.frame fr) (.frame gr)

theorem enter_along (hP : P.Erases Q) {name : String} {ts : List Tree} {e' : Entered}
    (h : enter Q name ts = some e') : ∃ e, enter P name ts = some e ∧ e.Along P Q e' := by
  unfold enter at h ⊢
  cases hf : P.funcs.lookup name with
  | none =>
    rw [hP.none name hf, hP.host] at h
    obtain ⟨t, ht, rfl⟩ := map_eq_some_iff.1 h
    refine ⟨.result t, ?_, .result⟩
    dsimp only
    rw [ht]
    rfl
  | some f =>
    obtain ⟨g, route, hg, herases⟩ := hP.some name f hf
    have hfunc : Drawn P Q route f g := ⟨herases, name, hf, hg⟩
    rw [hg] at h
    dsimp only at h ⊢
    rw [hfunc.params] at h
    split at h
    · next hlen =>
      rw [if_pos hlen]
      obtain ⟨gr, hgr, rfl⟩ := map_eq_some_iff.1 h
      obtain ⟨gr₁, hall, hgo⟩ := bind_eq_some_iff.1 hgr
      rw [hfunc.params] at hall
      obtain ⟨vars, hfr, rfl⟩ := @assignAll_along _ _ ⟨f, default, [], fun _ => none⟩
        ⟨g, default, [], fun _ => none⟩ _ rfl hall
      obtain ⟨block', hblock', rfl⟩ := map_eq_some_iff.1 hgo
      rw [bind_some, hfunc.entry] at hblock'
      obtain ⟨block, hblock⟩ := hfunc.start
      have hstart : startFrame f ts = some ⟨f, block, block.code, vars⟩ := by
        unfold startFrame Frame.goTo
        dsimp only
        rw [bind_eq_bind, hfr, bind_some, bind_some, hblock]
        rfl
      rw [hstart]
      exact ⟨_, rfl, .frame (@along_start _ _ ⟨f, block, [], vars⟩ ⟨g, block', [], vars⟩ _ hfunc _ _ _
        hblock hblock' vars)⟩
    · cases h

-- ======== steps

/-- What is waited for comes, or a new frame is put on top. -/
theorem continueWith_along (hcallers : Forall₂ (fun p q => Along P Q p.1 q.1 ∧ q.2 = p.2)
      c.callers d.callers) (h : Along P Q fr gr) (dst : Var) {e e' : Entered} (he : e.Along P Q e') :
    (continueWith c fr dst e).Along P Q (continueWith d gr dst e') := by
  cases he with
  | result => exact ⟨h.assign dst _, hcallers⟩
  | frame hcallee => exact ⟨hcallee, .cons ⟨h, rfl⟩ hcallers⟩

/-- An instruction that does not count does the same in both. -/
theorem exec_along (hP : P.Erases Q) (hcallers : Forall₂
      (fun p q => Along P Q p.1 q.1 ∧ q.2 = p.2) c.callers d.callers) (h : Along P Q fr gr) {x : Instr}
    (hx : x.isCount = false) (hclosure : ∀ dst func captures, x = .closure dst func captures →
      gr.func.typeOf dst = fr.func.typeOf dst) {d' : Config} (hexec : exec Q d gr x = some d') :
    ∃ c', exec P c fr x = some c' ∧ c'.Along P Q d' := by
  have hvars := h.vars
  have hget : ∀ vs, gr.getAll vs = fr.getAll vs := by
    intro vs
    unfold Frame.getAll
    rw [hvars]
  have hon : ∀ dst t, Config.Along P Q { c with top := fr.assign dst t }
      { d with top := gr.assign dst t } := fun dst t => ⟨h.assign dst t, hcallers⟩
  -- what is read alike, and made into a tree alike
  have hmake : ∀ {α : Type} {dst : Var} {read : Option α} {make : α → Option Tree},
      (do return { d with top := gr.assign dst (← make (← read)) }) = some d' →
      ∃ c', (do return { c with top := fr.assign dst (← make (← read)) }) = some c' ∧
        c'.Along P Q d' := by
    intro α dst read make hexec
    obtain ⟨a, ha, hexec⟩ := bind_eq_some_iff.1 hexec
    obtain ⟨t, ht, hexec⟩ := bind_eq_some_iff.1 hexec
    cases hexec
    refine ⟨_, ?_, hon dst t⟩
    rw [ha, bind_eq_bind, bind_some, ht]
    rfl
  unfold exec at hexec ⊢
  cases x with
  | lit dst value =>
    cases hexec
    rw [hP.pool]
    exact ⟨_, rfl, hon dst _⟩
  | move dst src =>
    dsimp only at hexec ⊢
    rw [hvars] at hexec
    obtain ⟨t, ht, rfl⟩ := map_eq_some_iff.1 hexec
    rw [ht]
    exact ⟨_, rfl, hon dst t⟩
  | prim dst op args =>
    dsimp only at hexec ⊢
    rw [hget, hP.pool] at hexec
    exact hmake hexec
  | call dst func args tail =>
    dsimp only at hexec ⊢
    rw [hget] at hexec
    obtain ⟨ts, hts, hexec⟩ := bind_eq_some_iff.1 hexec
    obtain ⟨e', he', hexec⟩ := bind_eq_some_iff.1 hexec
    cases hexec
    obtain ⟨e, he, halong⟩ := enter_along hP he'
    refine ⟨_, ?_, continueWith_along hcallers h dst halong⟩
    rw [hts, bind_eq_bind, bind_some, he]
    rfl
  | callClosure dst callee args =>
    dsimp only at hexec ⊢
    rw [hget, hvars] at hexec
    obtain ⟨t, ht, hexec⟩ := bind_eq_some_iff.1 hexec
    obtain ⟨ts, hts, hexec⟩ := bind_eq_some_iff.1 hexec
    rw [ht, hts]
    split at hexec
    · next func n hlabel =>
      obtain ⟨e', he', hexec⟩ := bind_eq_some_iff.1 hexec
      cases hexec
      obtain ⟨e, he, halong⟩ := enter_along hP he'
      refine ⟨_, ?_, continueWith_along hcallers h dst halong⟩
      simp only [bind_eq_bind, bind_some, hlabel, he]
      rfl
    · cases hexec
  | closure dst func captures =>
    dsimp only at hexec ⊢
    rw [hget, hP.pool, hclosure dst func captures rfl] at hexec
    obtain ⟨ts, hts, hexec⟩ := bind_eq_some_iff.1 hexec
    cases hexec
    rw [hts]
    exact ⟨_, rfl, hon dst _⟩
  | construct dst type variant args =>
    dsimp only at hexec ⊢
    rw [hget, hP.pool] at hexec
    exact hmake hexec
  | project dst src variant field =>
    dsimp only at hexec ⊢
    rw [hvars] at hexec
    exact hmake hexec
  | tag dst src =>
    dsimp only at hexec ⊢
    rw [hvars] at hexec
    exact hmake hexec
  | inc v => cases hx
  | dec v => cases hx
  | _ => cases hexec

/-- What steps lead to goes along. -/
inductive Progress.Along (P Q : Program) : Progress → Progress → Prop
  | running {c d : Config} (h : c.Along P Q d) : Progress.Along P Q (.running c) (.running d)
  | finished {t : Tree} : Progress.Along P Q (.finished t) (.finished t)

theorem returnTree_along {cs ds : List (Frame × Var)} (t : Tree)
    (h : Forall₂ (fun p q => Along P Q p.1 q.1 ∧ q.2 = p.2) cs ds) :
    (returnTree cs t).Along P Q (returnTree ds t) := by
  cases h with
  | nil => exact .finished
  | @cons p q cs ds hpq hrest =>
    obtain ⟨fr, dst⟩ := p
    obtain ⟨gr, dst'⟩ := q
    obtain ⟨halong, rfl⟩ := hpq
    exact .running ⟨halong.assign dst' t, hrest⟩

/-- A switch whose edges lead elsewhere. -/
theorem switchTarget_reroute (m : BlockId → BlockId) (n : Int64) (cases : List Case)
    (default : Target) :
    switchTarget n (cases.map fun c => { c with target := c.target.map m }) (default.map m) =
      (switchTarget n cases default).map m := by
  unfold switchTarget
  rw [find?_map, Function.comp_def]
  cases cases.find? fun c => decide (c.value = n) with
  | none => rfl
  | some c => rfl

/-- A terminator does the same in both, but that it may lead to a block on an
edge. -/
theorem execTerm_along {b : BlockId}
    (hfunc : Drawn P Q route c.top.func d.top.func) (hvars : d.top.vars = c.top.vars)
    (hblock : c.top.func.block? b = some c.top.block)
    (hterm : d.top.block.term = c.top.block.term.map (Term.reroute (route b)))
    (hcallers : Forall₂ (fun p q => Along P Q p.1 q.1 ∧ q.2 = p.2) c.callers d.callers)
    {pr' : Progress} (h : execTerm d = some pr') :
    ∃ pr, execTerm c = some pr ∧ pr.Along P Q pr' := by
  have hget : ∀ vs, d.top.getAll vs = c.top.getAll vs := by
    intro vs
    unfold Frame.getAll
    rw [hvars]
  -- an edge that hands nothing over
  have hmove : ∀ {term : Term} {o : Target}, c.top.block.term = some term → o ∈ term.targets →
      (d.top.goTo (o.map (route b))).map (fun next => Progress.running { d with top := next }) =
        some pr' →
      ∃ pr, (c.top.goTo o).map (fun next => Progress.running { c with top := next }) = some pr ∧
        pr.Along P Q pr' := by
    intro term o hcterm ho hgo
    obtain ⟨gr, hgr, rfl⟩ := map_eq_some_iff.1 hgo
    cases o with
    | none => cases hgr
    | some t =>
      obtain ⟨fr, hfr, hvars', -, halong⟩ :=
        goTo_along hfunc hvars hblock (Block.mem_successors hcterm ho) hgr
      refine ⟨.running { c with top := fr }, by rw [hfr]; rfl, .running ⟨?_, hcallers⟩⟩
      obtain ⟨func, block, code, vars⟩ := gr
      obtain rfl : vars = fr.vars := hvars'
      exact halong fr.vars
  unfold execTerm at h ⊢
  dsimp only at h ⊢
  rw [hterm] at h
  cases hcterm : c.top.block.term with
  | none =>
    rw [hcterm] at h
    cases h
  | some term =>
    rw [hcterm] at h
    cases term with
    | ret v =>
      rw [map_some, Term.reroute] at h
      dsimp only at h ⊢
      rw [hvars] at h
      obtain ⟨t, ht, rfl⟩ := map_eq_some_iff.1 h
      rw [ht]
      exact ⟨_, rfl, returnTree_along t hcallers⟩
    | jump target args =>
      rw [map_some, Term.reroute] at h
      dsimp only at h ⊢
      rw [hget] at h
      obtain ⟨ts, hts, h⟩ := bind_eq_some_iff.1 h
      obtain ⟨gr, hgo, h⟩ := bind_eq_some_iff.1 h
      obtain ⟨gr', hall, h⟩ := bind_eq_some_iff.1 h
      cases h
      cases target with
      | none => cases hgo
      | some t =>
        have ht := Block.mem_successors hcterm (.head _)
        obtain ⟨fr, hfr, hvars', hparams, halong⟩ := goTo_along hfunc hvars hblock ht hgo
        obtain ⟨vars, hall', rfl⟩ := assignAll_along hvars' hall
        rw [hparams] at hall'
        refine ⟨.running { c with top := { fr with vars } }, ?_, .running ⟨halong vars, hcallers⟩⟩
        rw [hts, bind_eq_bind, bind_some, hfr, bind_eq_bind, bind_some, hall']
        rfl
    | branch cond thenTo elseTo =>
      rw [map_some, Term.reroute] at h
      dsimp only at h ⊢
      rw [hvars] at h
      obtain ⟨t, ht, h⟩ := bind_eq_some_iff.1 h
      rw [ht, bind_eq_bind, bind_some]
      split at h
      · next hcond =>
        rw [if_pos hcond]
        exact hmove hcterm (.head _) h
      · next hcond =>
        rw [if_neg hcond]
        exact hmove hcterm (.tail _ (.head _)) h
    | switch v cases default =>
      rw [map_some, Term.reroute] at h
      dsimp only at h ⊢
      rw [hvars] at h
      obtain ⟨t, ht, h⟩ := bind_eq_some_iff.1 h
      rw [ht, bind_eq_bind, bind_some]
      rw [switchTarget_reroute] at h
      exact hmove hcterm (Machine.switchTarget_mem v _ cases default) h
    | unreachable => cases h

-- ======== whole runs

/-- A count does nothing to trees. -/
theorem exec_count {x : Instr} (hx : x.isCount = true) {d' : Config}
    (h : exec Q d gr x = some d') : d' = { d with top := gr } := by
  cases x with
  | inc v => exact (some.inj h).symm
  | dec v => exact (some.inj h).symm
  | _ => cases hx

/-- A step of the run with counts is one the other run waits for, or one that it
does as well. -/
theorem step_along (hP : P.Erases Q) (h : c.Along P Q d) {pr' : Progress}
    (hstep : step Q d = some pr') :
    (∃ d', pr' = .running d' ∧ c.Along P Q d') ∨ ∃ pr, step P c = some pr ∧ pr.Along P Q pr' := by
  obtain ⟨htop, hcallers⟩ := h
  unfold step at hstep
  cases hcode' : d.top.code with
  | nil =>
    rw [hcode'] at hstep
    dsimp only at hstep
    cases htop with
    | @inside route b hfunc hvars hblock hsub hcode hterm =>
      right
      rw [hcode'] at hcode
      unfold step
      rw [← hcode]
      exact execTerm_along hfunc hvars hblock hterm hcallers hstep
    | @between route t hfunc hvars hblock hparams hstart hcode hterm =>
      left
      obtain ⟨block, hblock', hparams', herase, hterm'⟩ := hfunc.block t c.top.block hblock
      have hmove : execTerm d =
          some (.running { d with top := { d.top with block, code := block.code } }) := by
        unfold execTerm
        dsimp only
        rw [hterm]
        show (d.top.goTo (some t)).bind (fun next => (next.assignAll next.block.params []).bind
          fun fr => some (Progress.running { d with top := fr })) = _
        unfold Frame.goTo
        rw [bind_some, hblock', map_some, bind_some]
        dsimp only
        rw [hparams', hparams]
        rfl
      rw [hmove] at hstep
      refine ⟨_, (some.inj hstep).symm, ?_, hcallers⟩
      exact .inside hfunc hvars hblock (hstart ▸ Subset.refl _) (herase.trans hstart.symm) hterm'
  | cons x rest =>
    rw [hcode'] at hstep
    obtain ⟨d', hexec, rfl⟩ := map_eq_some_iff.1 hstep
    by_cases hx : x.isCount = true
    · left
      obtain rfl := exec_count hx hexec
      have herase : erase (x :: rest) = erase rest := filter_cons_of_neg (by simp [hx])
      refine ⟨_, rfl, ?_, hcallers⟩
      cases htop with
      | inside hfunc hvars hblock hsub hcode hterm =>
        rw [hcode', herase] at hcode
        exact .inside hfunc hvars hblock hsub hcode hterm
      | between hfunc hvars hblock hparams hstart hcode hterm =>
        rw [hcode', herase] at hcode
        exact .between hfunc hvars hblock hparams hstart hcode hterm
    · right
      rw [Bool.not_eq_true] at hx
      have herase : erase (x :: rest) = x :: erase rest := filter_cons_of_pos (by simp [hx])
      cases htop with
      | inside hfunc hvars hblock hsub hcode hterm =>
        rw [hcode', herase] at hcode
        have hmem : x ∈ c.top.block.code := hsub (hcode ▸ (.head _))
        have hrest : erase rest ⊆ c.top.block.code :=
          fun y hy => hsub (hcode ▸ mem_cons_of_mem x hy)
        have halong : Along P Q { c.top with code := erase rest } { d.top with code := rest } :=
          .inside hfunc hvars hblock hrest rfl hterm
        obtain ⟨c', hc', hc'd'⟩ := exec_along hP hcallers halong hx
          (fun dst func captures h =>
            hfunc.closure _ (Array.mem_of_getElem? hblock) dst func captures (h ▸ hmem)) hexec
        refine ⟨.running c', ?_, .running hc'd'⟩
        unfold step
        rw [← hcode]
        dsimp only
        rw [hc']
        rfl
      | between hfunc hvars hblock hparams hstart hcode hterm =>
        rw [hcode', herase] at hcode
        cases hcode

/-- What a run with counts comes to, the run without comes to as well. -/
theorem runFor_erases (hP : P.Erases Q) : ∀ {n : Nat} {c d : Config} {t : Tree},
    c.Along P Q d → runFor Q n d = some t → ∃ m, runFor P m c = some t := by
  intro n
  induction n with
  | zero =>
    intro c d t _ hrun
    cases hrun
  | succ n ih =>
    intro c d t h hrun
    unfold runFor at hrun
    cases hstep : step Q d with
    | none =>
      rw [hstep] at hrun
      cases hrun
    | some pr' =>
      rw [hstep] at hrun
      rcases step_along hP h hstep with ⟨d', rfl, halong⟩ | ⟨pr, hpr, halong⟩
      · exact ih halong hrun
      · cases halong with
        | running halong =>
          obtain ⟨m, hm⟩ := ih halong hrun
          refine ⟨m + 1, ?_⟩
          rw [runFor, hpr]
          exact hm
        | finished =>
          refine ⟨1, ?_⟩
          rw [runFor, hpr]
          exact hrun

/-- A program comes to what it comes to with counts in its code. -/
theorem Evaluates.erases (hP : P.Erases Q) {name : String} {args : List Tree} {t : Tree}
    (h : Evaluates Q name args t) : Evaluates P name args t := by
  obtain ⟨n, h⟩ := h
  unfold callFor at h
  cases he' : enter Q name args with
  | none =>
    rw [he'] at h
    cases h
  | some e' =>
    rw [he'] at h
    obtain ⟨e, he, halong⟩ := enter_along hP he'
    cases halong with
    | result =>
      refine ⟨0, ?_⟩
      rw [callFor, he]
      exact h
    | @frame fr gr halong =>
      have hstart : Config.Along P Q ⟨fr, []⟩ ⟨gr, []⟩ := ⟨halong, .nil⟩
      obtain ⟨m, hm⟩ := runFor_erases hP hstart h
      refine ⟨m, ?_⟩
      rw [callFor, he]
      exact hm

end RefCount.Plain
