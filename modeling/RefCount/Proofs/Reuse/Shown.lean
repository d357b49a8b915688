/-
The variant that is known of a value is the one that it has. Evidence is found
by going back over the code; a run went the same way forward. So what is shown
of a variable since it was bound is followed along a run: a projection and a
switch on a tag succeed on the variant that the object has at that moment.

# The argument

Evidence must not be older than the value. A variable is read where there is
evidence of it, so it was set before; and where it is bound first there is no
evidence, as it was not set (`Aware.fresh`). There is one such place only.
-/
import Mathlib
import RefCount.Proofs.Ir.Order
import RefCount.Proofs.Machine.Safe
import RefCount.Proofs.Reuse.Annotate

namespace RefCount.Machine

open Ir

variable {α β : Type} {w : World} {fr : Frame} {env : Env}

namespace Ends

theorem any {x : Run α} : Ends (fun _ => True) x w fun _ _ => True := by
  unfold Ends
  split <;> trivial

/-- What comes first is of no account. -/
theorem skip {x : Run α} {f : α → Run β} {P : β → World → Prop}
    (h : ∀ a w', Ends (fun _ => True) (f a) w' P) : Ends (fun _ => True) (x >>= f) w P :=
  bind (any.mono fun a w' _ => h a w')

/-- Variables that pass the check are set. -/
theorem check_isSet (vs : List Var) : Ends (fun _ => True) (fr.check vs) w fun _ w' =>
    w' = w ∧ ∀ v ∈ vs, fr.isSet v = true := by
  unfold Frame.check
  split
  · exact throw trivial
  · next h => exact pure ⟨rfl, fun v hv => by simpa using List.find?_eq_none.1 h v hv⟩

theorem checkDef_same (x : Instr) :
    Ends (fun _ => True) (checkDef fr x) w fun _ w' => w' = w := by
  unfold checkDef
  split
  · split
    · exact pure rfl
    · exact throw trivial
  · exact pure rfl

/-- An object is read as it is. -/
theorem objectAt_eq (p : Address) : Ends (fun _ => True) (Machine.objectAt p) w fun o w' =>
    w' = w ∧ w.heap.object p = .ok o := by
  unfold Machine.objectAt Machine.cellAt
  refine bind (bind (getHeap ?_))
  unfold Heap.object
  cases w.heap.find p with
  | error e => exact throw trivial
  | ok c => exact pure (pure ⟨rfl, rfl⟩)

/-- Setting a variable assigns it. -/
theorem set_assigned (v : Var) (x : Value) : Ends (fun _ => True) (fr.set v x) w fun fr' _ =>
    v < fr.vars.size ∧ fr' = assigned fr v x := by
  unfold Frame.set
  split
  · next h => exact pure ⟨h, rfl⟩
  · exact throw trivial

theorem deliver_assigned (a : Await) (v : Value) :
    Ends (fun _ => True) (deliver env fr a v) w fun fr' _ =>
      a.dst < fr.vars.size ∧ fr' = assigned fr a.dst v := by
  unfold deliver
  split
  · exact set_assigned a.dst v
  · exact skip fun _ _ => set_assigned a.dst v

end Ends

-- ======== steps of a frame

/-- An instruction of a frame, executed in a world. -/
structure Advances (x : Instr) (fr fr' : Frame) (w : World) : Prop where
  func : fr'.func = fr.func
  block : fr'.block = fr.block
  code : fr.code = x :: fr'.code
  uses : ∀ v ∈ x.uses, fr.isSet v = true
  get : ∀ v, x.def? ≠ some v → fr'.get v = fr.get v
  isSet : ∀ v, x.def? ≠ some v → fr'.isSet v = fr.isSet v
  project : ∀ dst src variant field p, x = .project dst src variant field →
    fr.get src = .ref p → ∃ o, w.heap.object p = .ok o ∧ o.variant = variant
  tag : ∀ dst src p, x = .tag dst src → fr.get src = .ref p →
    ∃ o, w.heap.object p = .ok o ∧ fr'.get dst = .int (Int64.ofInt o.variant)

/-- A frame goes on in another block. -/
structure Leads (fr fr' : Frame) : Prop where
  func : fr'.func = fr.func
  done : fr.code = []
  code : fr'.code = fr'.block.code
  target : ∃ t, (∃ term, fr.block.term = some term ∧ some t ∈ term.targets) ∧
    fr.func.block? t = some fr'.block ∧ ∀ tag cases default,
      fr.block.term = some (.switch tag cases default) →
        switchTarget (fr.get tag).toInt cases default = some t
  get : ∀ v ∉ fr'.block.params, fr'.get v = fr.get v
  isSet : ∀ v ∉ fr'.block.params, fr'.isSet v = fr.isSet v

/-- What a step of the frame on top leads to: it goes on, it waits for a call,
or its caller does. -/
inductive Next (cs : List (Frame × Await)) (fr : Frame) (w : World) : Config → Prop
  | advance {x : Instr} {fr' : Frame} (h : Advances x fr fr' w) : Next cs fr w ⟨fr', cs⟩
  | call {x : Instr} {fr' callee : Frame} {a : Await} (h : Advances x fr fr' w)
      (hx : x.def? = some a.dst) (hno : Reuse.evidence x = none) :
      Next cs fr w ⟨callee, (fr', a) :: cs⟩
  | lead {fr' : Frame} (h : Leads fr fr') : Next cs fr w ⟨fr', cs⟩
  | back {caller : Frame} {a : Await} {cs' : List (Frame × Await)} {v : Value}
      (hcs : cs = (caller, a) :: cs') (hdst : a.dst < caller.vars.size) :
      Next cs fr w ⟨assigned caller a.dst v, cs'⟩

section Steps

variable {cs : List (Frame × Await)} {x : Instr} {rest : List Instr}

/-- A value is assigned. -/
theorem set_next {dst : Var} {v : Value} {w₁ : World}
    (h : dst < fr.vars.size → Advances x fr (assigned { fr with code := rest } dst v) w) :
    Ends (fun _ => True) (do
      let fr' ← Frame.set { fr with code := rest } dst v
      return (⟨fr', cs⟩ : Config)) w₁ fun c _ => Next cs fr w c := by
  refine Ends.bind ((Ends.set_assigned dst v).mono ?_)
  rintro _ _ ⟨hdst, rfl⟩
  exact Ends.pure (.advance (h hdst))

/-- An instruction that assigns a variable, and shows a variant if it is one
that does. -/
theorem Advances.assigned {dst : Var} {v : Value} (hcode : fr.code = x :: rest)
    (huses : ∀ v ∈ x.uses, fr.isSet v = true) (hdef : x.def? = some dst)
    (hdst : dst < fr.vars.size)
    (hproject : ∀ dst src variant field p, x = .project dst src variant field →
      fr.get src = .ref p → ∃ o, w.heap.object p = .ok o ∧ o.variant = variant)
    (htag : ∀ dst src p, x = .tag dst src → fr.get src = .ref p →
      ∃ o, w.heap.object p = .ok o ∧ v = .int (Int64.ofInt o.variant)) :
    Advances x fr (assigned { fr with code := rest } dst v) w where
  func := rfl
  block := rfl
  code := hcode
  uses := huses
  get u hu := by
    have hne : u ≠ dst := fun h => hu (h ▸ hdef)
    exact (get_assigned hdst u).trans (if_neg hne)
  isSet u hu := by
    have hne : u ≠ dst := fun h => hu (h ▸ hdef)
    refine (isSet_assigned hdst u).trans ?_
    rw [decide_eq_false hne, Bool.false_or]
  project := hproject
  tag d s p hx hp := by
    obtain ⟨o, ho, rfl⟩ := htag d s p hx hp
    subst hx
    obtain rfl := Option.some.inj hdef
    exact ⟨o, ho, (get_assigned hdst d).trans (if_pos rfl)⟩

section Silent

variable (hcode : fr.code = x :: rest) (huses : ∀ v ∈ x.uses, fr.isSet v = true)
  (hx : Reuse.evidence x = none)
include hcode huses hx

/-- An instruction that assigns a variable and shows nothing. -/
theorem Advances.bind {dst : Var} {v : Value} (hdef : x.def? = some dst)
    (hdst : dst < fr.vars.size) :
    Advances x fr (Machine.assigned { fr with code := rest } dst v) w :=
  .assigned hcode huses hdef hdst (fun _ _ _ _ _ h => by subst h; cases hx)
    fun _ _ _ h => by subst h; cases hx

/-- An instruction that assigns nothing. -/
theorem Advances.stay : Advances x fr { fr with code := rest } w where
  func := rfl
  block := rfl
  code := hcode
  uses := huses
  get _ _ := rfl
  isSet _ _ := rfl
  project _ _ _ _ _ h := by subst h; cases hx
  tag _ _ _ h := by subst h; cases hx

/-- A value is computed and assigned. -/
theorem on_next {m : Run Value} {dst : Var} {w₁ : World} (hdef : x.def? = some dst) :
    Ends (fun _ => True) (do
      let v ← m
      let fr' ← Frame.set { fr with code := rest } dst v
      return (⟨fr', cs⟩ : Config)) w₁ fun c _ => Next cs fr w c := by
  exact Ends.skip fun v w' => set_next fun hdst => .bind hcode huses hx hdef hdst

/-- What is called gives a result at once, or the frame waits for it. -/
theorem continueWith_next {a : Await} {e : Entered} {w₁ : World} (hdef : x.def? = some a.dst) :
    Ends (fun _ => True) (continueWith env ⟨fr, cs⟩ { fr with code := rest } a e) w₁ fun c _ =>
      Next cs fr w c := by
  cases e with
  | result v =>
    refine Ends.bind ((Ends.deliver_assigned a v).mono ?_)
    rintro _ _ ⟨hdst, rfl⟩
    exact Ends.pure (.advance (.bind hcode huses hx hdef hdst))
  | frame callee => exact Ends.pure (.call (.stay hcode huses hx) hdef hx)

end Silent

/-- An instruction goes on in its frame, or waits for a call. One case for each
instruction. -/
theorem exec_next {w₁ : World} (hw : w₁.heap = w.heap) (hcode : fr.code = x :: rest)
    (huses : ∀ v ∈ x.uses, fr.isSet v = true) :
    Ends (fun _ => True) (exec env ⟨fr, cs⟩ { fr with code := rest } x) w₁ fun c _ =>
      Next cs fr w c := by
  cases x with
  | project dst src variant field =>
    have hset : ∀ (v : Value) (w' : World), (∀ p, fr.get src = .ref p →
        ∃ o, w.heap.object p = .ok o ∧ o.variant = variant) →
        Ends (fun _ => True) (do
          let fr' ← Frame.set { fr with code := rest } dst v
          return (⟨fr', cs⟩ : Config)) w' fun c _ => Next cs fr w c := by
      intro v w' hshown
      refine set_next fun hdst => .assigned hcode huses rfl hdst ?_ fun _ _ _ h => by cases h
      rintro _ _ _ _ p ⟨⟩ hp
      exact hshown p hp
    refine Ends.bind (x := project (fr.get src) variant field) ?_
    unfold project
    split
    · next h =>
      exact Ends.any.mono fun v w' _ => hset v w' fun p hp => by rw [h] at hp; cases hp
    · next p h =>
      refine Ends.bind ((Ends.objectAt_eq p).mono ?_)
      rintro o _ ⟨rfl, ho⟩
      split
      · exact Ends.throw trivial
      · next hok =>
        refine Ends.any.mono fun v w' _ => hset v w' fun p' hp' => ⟨o, ?_, ?_⟩
        · rw [h] at hp'
          obtain rfl := Value.ref.inj hp'
          rwa [← hw]
        · by_contra hne
          simp [hne] at hok
    · exact Ends.throw trivial
  | tag dst src =>
    have hset : ∀ (v : Value) (w' : World), (∀ p, fr.get src = .ref p →
        ∃ o, w.heap.object p = .ok o ∧ v = .int (Int64.ofInt o.variant)) →
        Ends (fun _ => True) (do
          let fr' ← Frame.set { fr with code := rest } dst v
          return (⟨fr', cs⟩ : Config)) w' fun c _ => Next cs fr w c := by
      intro v w' hshown
      refine set_next fun hdst => .assigned hcode huses rfl hdst (fun _ _ _ _ _ h => by cases h) ?_
      rintro _ _ p ⟨⟩ hp
      exact hshown p hp
    refine Ends.bind (x := tagOf (fr.get src)) ?_
    unfold tagOf
    split
    · next n h =>
      exact Ends.pure (hset _ _ fun p hp => by rw [h] at hp; cases hp)
    · next p h =>
      refine Ends.bind ((Ends.objectAt_eq p).mono ?_)
      rintro o _ ⟨rfl, ho⟩
      refine Ends.pure (hset _ _ fun p' hp' => ⟨o, ?_, rfl⟩)
      rw [h] at hp'
      obtain rfl := Value.ref.inj hp'
      rwa [← hw]
    · exact Ends.throw trivial
  | call dst func args tail =>
    exact Ends.skip fun e w' => continueWith_next hcode huses rfl (a := ⟨dst, none⟩) rfl
  | callClosure dst closure args =>
    refine Ends.skip fun o w' => Ends.skip fun _ w' => Ends.skip fun e w' => ?_
    exact continueWith_next hcode huses rfl rfl
  | move dst src => exact on_next hcode huses rfl (m := pure (fr.get src)) rfl
  | isShared dst v =>
    exact Ends.skip fun c w' => on_next hcode huses rfl (m := pure (.ofBool (1 < c.count))) rfl
  | inc v => exact Ends.skip fun _ _ => Ends.pure (.advance (.stay hcode huses rfl))
  | dec v => exact Ends.skip fun _ _ => Ends.pure (.advance (.stay hcode huses rfl))
  | set v field value => exact Ends.skip fun _ _ => Ends.pure (.advance (.stay hcode huses rfl))
  | setTag v variant => exact Ends.skip fun _ _ => Ends.pure (.advance (.stay hcode huses rfl))
  | _ => exact on_next hcode huses rfl rfl

/-- Going to a block of the terminator. -/
theorem goTo_leads {t : Target} {w₁ : World} (hdone : fr.code = []) {term : Term}
    (hterm : fr.block.term = some term) (ht : t ∈ term.targets)
    (hswitch : ∀ tag cases default, fr.block.term = some (.switch tag cases default) →
      switchTarget (fr.get tag).toInt cases default = t) :
    Ends (fun _ => True) (fr.goTo t) w₁ fun fr' _ => Leads fr fr' := by
  unfold Frame.goTo
  split
  · next b hb =>
    cases t with
    | none => cases hb
    | some t =>
      exact Ends.pure ⟨rfl, hdone, rfl, ⟨t, ⟨term, hterm, ht⟩, hb, hswitch⟩, fun _ _ => rfl,
        fun _ _ => rfl⟩
  · exact Ends.throw trivial

/-- Setting variables leaves all else. -/
theorem setAll_same {w₁ : World} : ∀ (vs : List Var) (xs : List Value) (fr : Frame),
    Ends (fun _ => True) (fr.setAll vs xs) w₁ fun fr' _ => fr'.func = fr.func ∧
      fr'.block = fr.block ∧ fr'.code = fr.code ∧
      ∀ v ∉ vs, fr'.get v = fr.get v ∧ fr'.isSet v = fr.isSet v
  | [], _, fr => Ends.pure ⟨rfl, rfl, rfl, fun _ _ => ⟨rfl, rfl⟩⟩
  | _ :: _, [], _ => Ends.throw trivial
  | v :: vs, x :: xs, fr => by
    refine Ends.bind (x := fr.set v x) ((Ends.set_assigned v x).mono ?_)
    rintro _ w' ⟨hv, rfl⟩
    refine (setAll_same vs xs (assigned fr v x)).mono ?_
    rintro fr' _ ⟨hfunc, hblock, hcode, hvars⟩
    refine ⟨hfunc, hblock, hcode, fun u hu => ?_⟩
    obtain ⟨hne, hu⟩ := not_or.1 fun h => hu (List.mem_cons.2 h)
    obtain ⟨hget, hset⟩ := hvars u hu
    rw [hget, hset, get_assigned hv, isSet_assigned hv, if_neg hne, decide_eq_false hne,
      Bool.false_or]
    exact ⟨rfl, rfl⟩

/-- What ends a block leads to another one, or back to the caller. -/
theorem execTerm_next (hdone : fr.code = []) :
    Ends (fun _ => True) (execTerm env ⟨fr, cs⟩) w fun pr _ => ∀ c, pr = .running c →
      Next cs fr w c := by
  unfold execTerm
  refine Ends.skip fun _ w₁ => ?_
  dsimp only
  split
  · exact Ends.throw trivial
  · next v hterm =>
    cases cs with
    | nil => exact Ends.pure fun c h => by cases h
    | cons caller cs =>
      obtain ⟨caller, a⟩ := caller
      refine Ends.bind ((Ends.inContext (fun _ _ => trivial)
        (Ends.deliver_assigned a (fr.get v))).mono ?_)
      rintro _ _ ⟨hdst, rfl⟩
      refine Ends.pure fun c h => ?_
      cases h
      exact .back rfl hdst
  · next target args hterm =>
    refine Ends.bind
      ((goTo_leads hdone hterm List.mem_cons_self fun tag cases default h => ?_).mono ?_)
    · rw [hterm] at h
      cases h
    · intro fr₁ w₁ h₁
      refine Ends.bind ((setAll_same fr₁.block.params (fr.getAll args) fr₁).mono ?_)
      rintro fr' _ ⟨hfunc, hblock, hcode, hvars⟩
      refine Ends.pure fun c h => ?_
      cases h
      obtain ⟨t, hterm, ht, hswitch⟩ := h₁.target
      refine .lead ⟨hfunc.trans h₁.func, hdone, ?_, ⟨t, hterm, by rw [hblock, ht], hswitch⟩,
        fun v hv => ?_, fun v hv => ?_⟩
      · rw [hcode, hblock, h₁.code]
      · rw [hblock] at hv
        rw [(hvars v hv).1, h₁.get v hv]
      · rw [hblock] at hv
        rw [(hvars v hv).2, h₁.isSet v hv]
  · next cond thenTo elseTo hterm =>
    refine Ends.bind ((goTo_leads hdone hterm ?_ fun tag cases default h => ?_).mono ?_)
    · split <;> simp [Term.targets]
    · rw [hterm] at h
      cases h
    · intro fr' _ h₁
      refine Ends.pure fun c h => ?_
      cases h
      exact .lead h₁
  · next v cases default hterm =>
    split
    · exact Ends.throw trivial
    · next b hb =>
      refine Ends.bind ((goTo_leads hdone hterm ?_ fun tag cases default h => ?_).mono ?_)
      · exact hb ▸ switchTarget_mem v _ cases default
      · rw [hterm] at h
        cases h
        exact hb
      · intro fr' _ h₁
        refine Ends.pure fun c h => ?_
        cases h
        exact .lead h₁
  · exact Ends.throw trivial

/-- What a step does to the frame on top. -/
theorem step_next {c : Config} {w' : World}
    (h : (step env ⟨fr, cs⟩).run.run w = (.ok (.running c), w')) : Next cs fr w c := by
  suffices hends : Ends (fun _ => True) (step env ⟨fr, cs⟩) w fun pr _ => ∀ c, pr = .running c →
      Next cs fr w c from hends.of_ok h c rfl
  unfold step
  cases hcode : fr.code with
  | nil => exact execTerm_next hcode
  | cons x rest =>
    refine Ends.bind (Ends.tally (Ends.inContext (E := fun _ => True) (fun _ _ => trivial) ?_))
    refine Ends.bind ((Ends.check_isSet x.uses).mono ?_)
    rintro _ _ ⟨rfl, huses⟩
    refine Ends.bind ((Ends.checkDef_same x).mono ?_)
    rintro _ _ rfl
    refine Ends.bind (Ends.mono (Q := fun c _ => Next cs fr w c) ?_ fun c _ hc => ?_)
    · exact exec_next rfl hcode huses
    · refine Ends.pure fun c' h => ?_
      cases h
      exact hc

end Steps

end RefCount.Machine

namespace RefCount.Reuse

open Ir Machine List

variable {g : Func} {v dst : Var} {b t : BlockId} {before : List Instr} {x : Instr}

-- ======== evidence

/-- There is evidence of the variant of a variable behind some code, or its tag
has been read there. -/
def Evident (g : Func) (v : Var) (b : BlockId) (before : List Instr) : Prop :=
  (∃ steps k, variantWithin g v steps b before = .ok (some k)) ∨ ∃ tag, .tag tag v ∈ before

/-- The code of a block up to where a variable is bound. -/
def Binds (g : Func) (v : Var) (b : BlockId) (before : List Instr) : Prop :=
  ∃ block, g.block? b = some block ∧ (before = [] ∧ v ∈ block.params ∨
    ∃ init x rest, before = init ++ [x] ∧ block.code = init ++ x :: rest ∧ x.def? = some v)

/-- Where a variable is bound there is no evidence of it yet. -/
def Unseen (g : Func) (v : Var) : Prop := ∀ b before, Binds g v b before → ¬Evident g v b before

theorem Binds.mem_defs (h : Binds g v b before) :
    ∃ block, g.block? b = some block ∧ v ∈ block.defs := by
  obtain ⟨block, hblock, ⟨-, hv⟩ | ⟨init, x, rest, -, hcode, hx⟩⟩ := h
  · exact ⟨block, hblock, mem_append_left _ hv⟩
  · refine ⟨block, hblock, mem_append_right _ (mem_filterMap.2 ⟨x, ?_, hx⟩)⟩
    rw [hcode]
    exact mem_append_right _ mem_cons_self

/-- One instruction of some code defines a variable. -/
theorem split_unique {x' : Instr} {rest rest' : List Instr} : ∀ {init init' : List Instr},
    ((init ++ x :: rest).filterMap Instr.def?).Nodup →
    init ++ x :: rest = init' ++ x' :: rest' → x.def? = some v → x'.def? = some v →
    init = init' ∧ x = x'
  | [], [], _, h, _, _ => ⟨rfl, (cons.inj h).1⟩
  | [], y :: init', hnd, h, hx, hx' => by
    obtain ⟨rfl, rfl⟩ := cons.inj h
    rw [nil_append, filterMap_cons_some hx] at hnd
    exact absurd (mem_filterMap.2 ⟨x', by simp, hx'⟩) (nodup_cons.1 hnd).1
  | y :: init, [], hnd, h, hx, hx' => by
    obtain ⟨rfl, rfl⟩ := cons.inj h
    rw [cons_append, filterMap_cons_some hx'] at hnd
    exact absurd (mem_filterMap.2 ⟨x, by simp, hx⟩) (nodup_cons.1 hnd).1
  | y :: init, z :: init', hnd, h, hx, hx' => by
    obtain ⟨rfl, htail⟩ := cons.inj h
    have hnd' := hnd.sublist ((sublist_cons_self y (init ++ x :: rest)).filterMap Instr.def?)
    obtain ⟨rfl, rfl⟩ := split_unique hnd' htail hx hx'
    exact ⟨rfl, rfl⟩

/-- A variable is bound at one place. -/
theorem Binds.unique (hf : WellFormed g) {b' : BlockId} {before' : List Instr}
    (h : Binds g v b before) (h' : Binds g v b' before') : b = b' ∧ before = before' := by
  have hb : b = b' := by
    by_contra hne
    obtain ⟨block, hblock, hv⟩ := h.mem_defs
    obtain ⟨block', hblock', hv'⟩ := h'.mem_defs
    exact Func.defs_disjoint hf.nodup hblock hblock' hne hv hv'
  subst hb
  refine ⟨rfl, ?_⟩
  obtain ⟨block, hblock, h⟩ := h
  obtain ⟨block', hblock', h'⟩ := h'
  obtain rfl := Option.some.inj (hblock.symm.trans hblock')
  obtain ⟨-, hnd, hdisjoint⟩ := nodup_append.1 (Func.nodup_block hf.nodup hblock)
  have hcode : ∀ {init x rest}, block.code = init ++ x :: rest → x.def? = some v →
      v ∈ block.code.filterMap Instr.def? := fun hcode hx =>
    mem_filterMap.2 ⟨_, hcode ▸ mem_append_right _ mem_cons_self, hx⟩
  obtain ⟨rfl, hv⟩ | ⟨init, x, rest, rfl, hx, hv⟩ := h
  · obtain ⟨rfl, -⟩ | ⟨init', x', rest', rfl, hx', hv'⟩ := h'
    · rfl
    · exact absurd rfl (hdisjoint v hv v (hcode hx' hv'))
  · obtain ⟨rfl, hv'⟩ | ⟨init', x', rest', rfl, hx', hv'⟩ := h'
    · exact absurd rfl (hdisjoint v hv' v (hcode hx hv))
    · obtain ⟨rfl, rfl⟩ := split_unique (hx ▸ hnd) (hx.symm.trans hx') hv hv'
      rfl

/-- Evidence is of the last instruction, or it was there before. -/
theorem variantWithin_snoc {steps : Nat} {k : Int}
    (h : variantWithin g v steps b (before ++ [x]) = .ok (some k)) :
    (∃ dst field, x = .project dst v k field) ∨
      variantWithin g v steps b before = .ok (some k) := by
  cases steps with
  | zero => cases h
  | succ steps =>
    have hlast : (∃ dst variant field, x = .project dst v variant field) ∨
        lastProjected? v (before ++ [x]) = lastProjected? v before := by
      unfold lastProjected?
      rw [reverse_append, reverse_singleton, singleton_append, findSome?_cons]
      cases x with
      | project dst src variant field =>
        by_cases hsrc : src = v
        · exact .inl ⟨dst, variant, field, by rw [hsrc]⟩
        · exact .inr (by simp [hsrc])
      | _ => exact .inr rfl
    rcases hlast with ⟨dst, variant, field, rfl⟩ | hlast
    · have hsome : lastProjected? v (before ++ [.project dst v variant field]) = some variant := by
        simp [lastProjected?]
      rw [variantWithin, hsome] at h
      obtain rfl := Option.some.inj (Except.ok.inj h)
      exact .inl ⟨dst, field, rfl⟩
    · rw [variantWithin, hlast] at h
      rw [variantWithin]
      exact .inr h

/-- What there is evidence of was seen before, or is read here. -/
theorem Evident.snoc (h : Evident g v b (before ++ [x])) : Evident g v b before ∨ v ∈ x.uses := by
  rcases h with ⟨steps, k, h⟩ | ⟨tag, h⟩
  · rcases variantWithin_snoc h with ⟨dst, field, rfl⟩ | h
    · exact .inr mem_cons_self
    · exact .inl (.inl ⟨steps, k, h⟩)
  · rcases mem_append.1 h with h | h
    · exact .inl (.inr ⟨tag, h⟩)
    · obtain rfl := mem_singleton.1 h
      exact .inr mem_cons_self

/-- A switch that goes to the block of one case is on its value. -/
theorem onlyCase?_eq {n : Int64} {cases : List Case} {default : Target} {k : Int}
    (hgoes : switchTarget n cases default = some b) (h : onlyCase? cases default b = some k) :
    Int64.ofInt k = n := by
  unfold onlyCase? at h
  split at h
  · cases h
  · next hdefault =>
    split at h
    · next c hc =>
      obtain rfl := Option.some.inj h
      unfold switchTarget at hgoes
      split at hgoes
      · next c' hfind =>
        have hmem : c' ∈ cases.filter (·.target = some b) :=
          mem_filter.2 ⟨mem_of_find?_eq_some hfind, decide_eq_true hgoes⟩
        rw [hc] at hmem
        obtain rfl := mem_singleton.1 hmem
        have hval : c'.value = n := by simpa using find?_some hfind
        rw [hval, Int64.ofInt_toInt]
      · exact absurd hgoes hdefault
    · cases h

-- ======== frames that are watched

variable {fr fr' : Frame} {w : World} {S S' : Var → Int64 → Prop}

/-- The variant that the object of a variable has. -/
def Shows (fr : Frame) (w : World) (v : Var) (n : Int64) : Prop :=
  ∃ p o, fr.get v = .ref p ∧ w.heap.object p = .ok o ∧ n = Int64.ofInt o.variant

/-- What evidence says of a frame has been shown by it. -/
structure Aware (g : Func) (before : List Instr) (fr : Frame) (S : Var → Int64 → Prop) :
    Prop where
  func : fr.func = g
  block : g.block? fr.block.id = some fr.block
  code : fr.block.code = before ++ fr.code
  set : ∀ v, Evident g v fr.block.id before → fr.isSet v = true
  known : ∀ v steps k p, variantWithin g v steps fr.block.id before = .ok (some k) →
    fr.get v = .ref p → S v (Int64.ofInt k)
  tags : ∀ tag v p, .tag tag v ∈ before → fr.get v = .ref p → ∃ n, fr.get tag = .int n ∧ S v n
  fresh : ∀ v, fr.isSet v = true → Unseen g v

namespace Aware

/-- What has been shown more often is known as well. -/
theorem mono (h : Aware g before fr S) (hS' : ∀ v n, S v n → S' v n) : Aware g before fr S' :=
  { h with
    known := fun v steps k p hk hp => hS' v _ (h.known v steps k p hk hp)
    tags := fun tag v p hm hp => by
      obtain ⟨n, hn, hSn⟩ := h.tags tag v p hm hp
      exact ⟨n, hn, hS' v n hSn⟩ }

/-- The tag of a variable is not taken before it is defined. -/
theorem not_tag (hf : WellFormed g) (h : Aware g before fr S) {rest : List Instr}
    (hcode : fr.code = x :: rest) (hdef : x.def? = some v) (u : Var) : .tag v u ∉ before := by
  intro htag
  obtain ⟨init, mid, rfl⟩ := append_of_mem htag
  obtain ⟨-, hnd, -⟩ := nodup_append.1 (Func.nodup_block hf.nodup h.block)
  rw [h.code, hcode] at hnd
  have hsame : init ++ .tag v u :: mid ++ x :: rest = init ++ .tag v u :: (mid ++ x :: rest) := by
    simp
  obtain ⟨hinit, -⟩ := split_unique hnd hsame hdef rfl
  simp at hinit

/-- An instruction keeps what is known, and where it binds a variable there is
no evidence of it. -/
theorem advance (hf : WellFormed g) (h : Aware g before fr S) (ha : Advances x fr fr' w)
    (hS : ∀ v n, Shows fr w v n → S v n) (hS' : ∀ v n, x.def? ≠ some v → S v n → S' v n) :
    Aware g (before ++ [x]) fr' S' ∧
      ∀ v, x.def? = some v → Unseen g v ∧ ¬Evident g v fr.block.id (before ++ [x]) := by
  have hcode := h.code
  rw [ha.code] at hcode
  have hevident : ∀ v, Evident g v fr.block.id (before ++ [x]) → fr.isSet v = true :=
    fun v hv => hv.snoc.elim (h.set v) (ha.uses v)
  have hbinds : ∀ v, x.def? = some v → Binds g v fr.block.id (before ++ [x]) := fun v hv =>
    ⟨fr.block, h.block, .inr ⟨before, x, fr'.code, rfl, hcode, hv⟩⟩
  have hnone : ∀ v, x.def? = some v → ¬Evident g v fr.block.id (before ++ [x]) :=
    fun v hv he => h.fresh v (hevident v he) _ _ (hbinds v hv) he
  have hunseen : ∀ v, x.def? = some v → Unseen g v := by
    intro v hv b' before' hb'
    obtain ⟨rfl, rfl⟩ := hb'.unique hf (hbinds v hv)
    exact hnone v hv
  refine ⟨⟨ha.func.trans h.func, by rw [ha.block, h.block], ?_, fun v hv => ?_,
    fun v steps k p hk hp => ?_, fun tag v p htag hp => ?_, fun v hv => ?_⟩,
    fun v hv => ⟨hunseen v hv, hnone v hv⟩⟩
  · rw [ha.block, hcode, append_assoc, singleton_append]
  · rw [ha.block] at hv
    have hdef : x.def? ≠ some v := fun hdef => hnone v hdef hv
    rw [ha.isSet v hdef]
    exact hevident v hv
  · rw [ha.block] at hk
    have hdef : x.def? ≠ some v := fun hdef => hnone v hdef (.inl ⟨steps, k, hk⟩)
    rw [ha.get v hdef] at hp
    refine hS' v _ hdef ?_
    rcases variantWithin_snoc hk with ⟨dst, field, hx⟩ | hk
    · obtain ⟨o, ho, rfl⟩ := ha.project dst v k field p hx hp
      exact hS v _ ⟨p, o, hp, ho, rfl⟩
    · exact h.known v steps k p hk hp
  · have hdef : x.def? ≠ some v := fun hdef => hnone v hdef (.inr ⟨tag, htag⟩)
    rw [ha.get v hdef] at hp
    rcases mem_append.1 htag with htag | htag
    · obtain ⟨n, hn, hSn⟩ := h.tags tag v p htag hp
      refine ⟨n, ?_, hS' v n hdef hSn⟩
      rw [ha.get tag, hn]
      exact fun hdef => h.not_tag hf ha.code hdef v htag
    · obtain rfl := (mem_singleton.1 htag).symm
      obtain ⟨o, ho, hget⟩ := ha.tag tag v p rfl hp
      exact ⟨_, hget, hS' v _ hdef (hS v _ ⟨p, o, hp, ho, rfl⟩)⟩
  · by_cases hdef : x.def? = some v
    · exact hunseen v hdef
    · rw [ha.isSet v hdef] at hv
      exact h.fresh v hv

/-- The result of a call is bound. -/
theorem bind (h : Aware g before fr S) {y : Value} (hdst : dst < fr.vars.size)
    (hunseen : Unseen g dst) (hno : ¬Evident g dst fr.block.id before)
    (htag : ∀ v, .tag dst v ∉ before) (hS' : ∀ v n, v ≠ dst → S v n → S' v n) :
    Aware g before (assigned fr dst y) S' where
  func := h.func
  block := h.block
  code := h.code
  set v hv := by
    rw [isSet_assigned hdst, h.set v hv, Bool.or_true]
  known v steps k p hk hp := by
    have hne : v ≠ dst := fun heq => hno (heq ▸ .inl ⟨steps, k, hk⟩)
    rw [get_assigned hdst, if_neg hne] at hp
    exact hS' v _ hne (h.known v steps k p hk hp)
  tags tag v p hm hp := by
    have hne : v ≠ dst := fun heq => hno (heq ▸ .inr ⟨tag, hm⟩)
    have hne' : tag ≠ dst := fun heq => htag v (heq ▸ hm)
    rw [get_assigned hdst, if_neg hne] at hp
    obtain ⟨n, hn, hSn⟩ := h.tags tag v p hm hp
    exact ⟨n, by rw [get_assigned hdst, if_neg hne', hn], hS' v n hne hSn⟩
  fresh v hv := by
    rw [isSet_assigned hdst, Bool.or_eq_true, decide_eq_true_iff] at hv
    rcases hv with rfl | hv
    · exact hunseen
    · exact h.fresh v hv

/-- Evidence at the start of a block that another leads to is evidence at the
end of that one, or a case of its switch. -/
theorem back (h : Aware g before fr S) (hdone : fr.code = [])
    (hlead : fr.block.id ∈ g.preds t) {steps : Nat} {k : Int}
    (hk : variantWithin g v steps t [] = .ok (some k)) :
    (∃ steps, variantWithin g v steps fr.block.id before = .ok (some k)) ∨
      ∃ tag cases default, fr.block.term = some (.switch tag cases default) ∧
        .tag tag v ∈ before ∧ onlyCase? cases default t = some k := by
  have hcode := h.code
  rw [hdone, append_nil] at hcode
  cases steps with
  | zero => cases hk
  | succ steps =>
    rw [variantWithin] at hk
    dsimp only [lastProjected?, reverse_nil, findSome?_nil] at hk
    split at hk
    · cases hk
    · split at hk
      · next p hpreds =>
        obtain rfl := mem_singleton.1 (hpreds ▸ hlead)
        rw [h.block] at hk
        dsimp only at hk
        split at hk
        · next cases default hswitch =>
          unfold tagSwitch? at hswitch
          split at hswitch
          · next tag cases' default' hterm =>
            split at hswitch
            · next htakes =>
              cases hswitch
              refine .inr ⟨tag, cases, default, hterm, ?_, Except.ok.inj hk⟩
              obtain ⟨y, hy, hyes⟩ := any_eq_true.1 htakes
              rw [← hcode]
              cases y with
              | tag dst src =>
                obtain ⟨rfl, rfl⟩ : dst = tag ∧ src = v := by simpa using hyes
                exact hy
              | _ => cases hyes
            · cases hswitch
          · cases hswitch
        · rw [hcode] at hk
          exact .inl ⟨steps, hk⟩
      · cases hk

/-- So does going to another block, where a switch shows the variant. -/
theorem lead (hf : WellFormed g) (h : Aware g before fr S) (hl : Leads fr fr')
    (hS' : ∀ v n, v ∉ fr'.block.params → S v n → S' v n) : Aware g [] fr' S' := by
  obtain ⟨t, ⟨term, hterm, ht⟩, hblock, hswitch⟩ := hl.target
  rw [h.func] at hblock
  obtain rfl := hf.id t _ hblock
  have hlead : fr.block.id ∈ g.preds fr'.block.id := by
    refine mem_map.2 ⟨fr.block, mem_filter.2 ⟨?_, ?_⟩, rfl⟩
    · exact Array.mem_toList_iff.2 (Array.mem_of_getElem? h.block)
    · simp [Block.leadsTo, hterm, ht]
  have hevident : ∀ v, Evident g v fr'.block.id [] → fr.isSet v = true := by
    rintro v (⟨steps, k, hk⟩ | ⟨tag, hm⟩)
    · rcases h.back hl.done hlead hk with ⟨steps, hk⟩ | ⟨tag, cases, default, -, hm, -⟩
      · exact h.set v (.inl ⟨steps, k, hk⟩)
      · exact h.set v (.inr ⟨tag, hm⟩)
    · cases hm
  have hnone : ∀ v ∈ fr'.block.params, ¬Evident g v fr'.block.id [] := fun v hv he =>
    h.fresh v (hevident v he) _ _ ⟨_, hblock, .inl ⟨rfl, hv⟩⟩ he
  refine ⟨hl.func.trans h.func, hblock, hl.code.symm, fun v hv => ?_, fun v steps k p hk hp => ?_,
    fun tag v p hm => absurd hm not_mem_nil, fun v hv => ?_⟩
  · have hparam : v ∉ fr'.block.params := fun hp => hnone v hp hv
    rw [hl.isSet v hparam]
    exact hevident v hv
  · have hparam : v ∉ fr'.block.params := fun hp => hnone v hp (.inl ⟨steps, k, hk⟩)
    rw [hl.get v hparam] at hp
    refine hS' v _ hparam ?_
    rcases h.back hl.done hlead hk with ⟨steps, hk⟩ | ⟨tag, cases, default, hsw, hm, honly⟩
    · exact h.known v steps k p hk hp
    · obtain ⟨n, hn, hSn⟩ := h.tags tag v p hm hp
      have hgoes := hswitch tag cases default hsw
      rw [hn] at hgoes
      rwa [onlyCase?_eq hgoes honly]
  · by_cases hparam : v ∈ fr'.block.params
    · intro b' before' hb'
      obtain ⟨rfl, rfl⟩ := hb'.unique hf ⟨_, hblock, .inl ⟨rfl, hparam⟩⟩
      exact hnone v hparam
    · rw [hl.isSet v hparam] at hv
      exact h.fresh v hv

/-- At its start a function knows of nothing. -/
theorem start (hf : WellFormed g) {args : List Value} {w₀ : World}
    (h : (startFrame g args).run.run w₀ = (.ok fr, w)) : Aware g [] fr S := by
  have hends : Ends (fun _ => True) (startFrame g args) w₀ fun fr _ => fr.func = g ∧
      g.block? g.entry = some fr.block ∧ fr.code = fr.block.code ∧
      ∀ v, fr.isSet v = true → v ∈ g.params.map (·.var) := by
    unfold startFrame
    refine Ends.bind ((setAll_same _ args _).mono ?_)
    rintro fr' w' ⟨hfunc, -, -, hvars⟩
    unfold Frame.goTo
    split
    · next b hb =>
      refine Ends.pure ⟨hfunc, ?_, rfl, fun v hv => ?_⟩
      · rw [hfunc] at hb
        exact hb
      · by_contra hno
        have hset := (hvars v hno).2
        change fr'.isSet v = true at hv
        rw [hset] at hv
        simp [Frame.isSet, Array.getElem?_replicate] at hv
        split at hv <;> simp at hv
    · exact Ends.throw trivial
  obtain ⟨hfunc, hblock, hcode, hset⟩ := hends.of_ok h
  have hid := hf.id _ _ hblock
  have hnone : ∀ v, ¬Evident g v fr.block.id [] := by
    rintro v (⟨steps, k, hk⟩ | ⟨tag, hm⟩)
    · rw [hid] at hk
      cases steps with
      | zero => cases hk
      | succ steps =>
        rw [variantWithin, hf.entryFree] at hk
        dsimp only [lastProjected?, reverse_nil, findSome?_nil] at hk
        split at hk <;> cases hk
    · cases hm
  refine ⟨hfunc, by rw [hid, hblock], by rw [hcode, nil_append], fun v hv => absurd hv (hnone v),
    fun v steps k p hk => absurd (.inl ⟨steps, k, hk⟩) (hnone v),
    fun tag v p hm => absurd hm not_mem_nil, fun v hv b before hb => ?_⟩
  obtain ⟨block, hblock, hdef⟩ := hb.mem_defs
  exact absurd (hset v hv) (Func.not_mem_params_of_block hf.nodup hblock hdef)

end Aware

-- ======== runs

/-- A frame that is on top of others, or waits there. -/
inductive Active (cs : List (Frame × Await)) (fr : Frame) : Config → Prop
  | runs : Active cs fr ⟨fr, cs⟩
  | waits {top : Frame} {more : List (Frame × Await)} {a : Await} :
      Active cs fr ⟨top, more ++ (fr, a) :: cs⟩

/-- What a step binds in the frame above others: the variable of an
instruction or of a call that is over, or the parameters of a block. -/
def bound (cs : List (Frame × Await)) (c c' : Config) : List Var :=
  if c'.callers.length ≠ cs.length then []
  else if c.callers.length ≠ cs.length then c.callers.head?.toList.map (·.2.dst)
  else
    match c.top.code with
    | x :: _ => x.def?.toList
    | [] => c'.top.block.params

/-- A run from the call of a function on, as long as the call lasts: its frame,
and the variants that objects of its variables have shown since they were
bound. -/
inductive Watched (env : Env) (g : Func) (cs : List (Frame × Await)) :
    Config → World → Frame → (Var → Int64 → Prop) → Prop
  | start {args : List Value} {w₀ w : World} {fr : Frame}
      (h : (startFrame g args).run.run w₀ = (.ok fr, w)) :
      Watched env g cs ⟨fr, cs⟩ w fr (Shows fr w)
  | step {c c' : Config} {w w' : World} {fr fr' : Frame} {S : Var → Int64 → Prop}
      (h : Watched env g cs c w fr S) (hs : (step env c).run.run w = (.ok (.running c'), w'))
      (ha : Active cs fr' c') :
      Watched env g cs c' w' fr' fun v n => v ∉ bound cs c c' ∧ S v n ∨ Shows fr' w' v n

variable {env : Env} {cs : List (Frame × Await)} {c : Config} {a : Await}

/-- The frame on top is the one that is active. -/
theorem Active.eq_of_runs (h : Active cs fr ⟨fr', cs⟩) : fr = fr' := by
  generalize hc : (⟨fr', cs⟩ : Config) = c at h
  cases h with
  | runs => exact (Config.mk.inj hc).1.symm
  | waits =>
    have hlen := congrArg length (Config.mk.inj hc).2
    simp only [length_append, length_cons] at hlen
    omega

/-- So is the frame that waits above the callers. -/
theorem Active.eq_of_waits (h : Active cs fr c) (more : List (Frame × Await))
    (hc : c.callers = more ++ (fr', a) :: cs) : fr = fr' := by
  cases h with
  | runs =>
    have hlen := congrArg length hc
    simp only [length_append, length_cons] at hlen
    omega
  | waits =>
    have htail := append_inj_right' hc (by simp)
    exact (Prod.mk.inj (cons.inj htail).1).1

theorem Active.length_le (h : Active cs fr c) : cs.length ≤ c.callers.length := by
  cases h with
  | runs => exact le_rfl
  | waits =>
    simp only [length_append, length_cons]
    omega

/-- A frame that waits for a result. -/
structure Waiting (g : Func) (before : List Instr) (fr : Frame) (S : Var → Int64 → Prop)
    (a : Await) : Prop where
  aware : Aware g before fr S
  unseen : Unseen g a.dst
  unknown : ¬Evident g a.dst fr.block.id before
  noTag : ∀ v, .tag a.dst v ∉ before

/-- A frame that waits binds nothing. -/
theorem bound_of_waits {c' : Config} (more : List (Frame × Await))
    (h : c'.callers = more ++ (fr, a) :: cs) : bound cs c c' = [] := by
  have hlen := congrArg length h
  simp only [length_append, length_cons] at hlen
  exact if_pos (by omega)

/-- While others run, a frame that waits and what it has shown stay. -/
theorem Waiting.others {c' : Config} (h : Waiting g before fr S a) (more : List (Frame × Await))
    (hc : c'.callers = more ++ (fr, a) :: cs) :
    Waiting g before fr (fun v n => v ∉ bound cs c c' ∧ S v n ∨ Shows fr w v n) a := by
  refine { h with aware := h.aware.mono fun v n hn => .inl ⟨?_, hn⟩ }
  rw [bound_of_waits more hc]
  exact not_mem_nil

/-- Along a run, what evidence says has been shown. -/
theorem Watched.aware (hf : WellFormed g) (h : Watched env g cs c w fr S) :
    (∀ v n, Shows fr w v n → S v n) ∧ ((c = ⟨fr, cs⟩ ∧ ∃ before, Aware g before fr S) ∨
      ∃ top more a before, c = ⟨top, more ++ (fr, a) :: cs⟩ ∧ Waiting g before fr S a) := by
  induction h with
  | start h => exact ⟨fun _ _ h => h, .inl ⟨rfl, [], .start hf h⟩⟩
  | step h hs ha ih =>
    obtain ⟨hS, ⟨rfl, before, haware⟩ | ⟨top, more, a, before, rfl, hwait⟩⟩ := ih
    · refine ⟨fun v n h => .inr h, ?_⟩
      cases step_next hs with
      | advance hadv =>
        obtain rfl := ha.eq_of_runs
        refine .inl ⟨rfl, _, (haware.advance hf hadv hS fun v n hv hn => .inl ⟨?_, hn⟩).1⟩
        simpa [bound, hadv.code, eq_comm] using hv
      | @call x fr₁ callee a hadv hx hno =>
        obtain rfl := ha.eq_of_waits [] rfl
        obtain ⟨haware', hdst⟩ := haware.advance hf hadv hS fun v n _ hn => hn
        obtain ⟨hunseen, hunknown⟩ := hdst a.dst hx
        refine .inr ⟨callee, [], a, _, rfl, haware'.mono fun v n hn => .inl ⟨?_, hn⟩, hunseen, ?_,
          fun v hv => ?_⟩
        · rw [bound_of_waits [] rfl]
          exact not_mem_nil
        · rwa [hadv.block]
        · rcases mem_append.1 hv with hv | hv
          · exact haware.not_tag hf hadv.code hx v hv
          · obtain rfl := mem_singleton.1 hv
            cases hno
      | lead hl =>
        obtain rfl := ha.eq_of_runs
        refine .inl ⟨rfl, _, haware.lead hf hl fun v n hv hn => .inl ⟨?_, hn⟩⟩
        simpa [bound, hl.done] using hv
      | back hcs hdst =>
        have hlen := ha.length_le
        rw [hcs, length_cons] at hlen
        exact absurd hlen (Nat.not_succ_le_self _)
    · refine ⟨fun v n h => .inr h, ?_⟩
      cases step_next hs with
      | advance hadv =>
        obtain rfl := ha.eq_of_waits more rfl
        exact .inr ⟨_, more, a, before, rfl, hwait.others more rfl⟩
      | @call x fr₁ callee a' hadv hx hno =>
        obtain rfl := ha.eq_of_waits ((fr₁, a') :: more) rfl
        exact .inr ⟨_, (fr₁, a') :: more, a, before, rfl, hwait.others ((fr₁, a') :: more) rfl⟩
      | lead hl =>
        obtain rfl := ha.eq_of_waits more rfl
        exact .inr ⟨_, more, a, before, rfl, hwait.others more rfl⟩
      | back hcs hdst =>
        cases more with
        | nil =>
          obtain ⟨hcaller, rfl⟩ := cons.inj hcs
          obtain ⟨rfl, rfl⟩ := Prod.mk.inj hcaller
          obtain rfl := ha.eq_of_runs
          refine .inl ⟨rfl, before, hwait.aware.bind hdst hwait.unseen hwait.unknown hwait.noTag
            fun v n hv hn => .inl ⟨?_, hn⟩⟩
          simpa [bound] using hv
        | cons m more =>
          obtain ⟨-, rfl⟩ := cons.inj hcs
          obtain rfl := ha.eq_of_waits more rfl
          exact .inr ⟨_, more, a, before, rfl, hwait.others more rfl⟩

/-- A call of a function comes to a place of a block, where a variable refers
to an object. The object has been of no other variant since the variable was
bound. -/
inductive Meets (g : Func) (b : BlockId) (i : Nat) (v : Var) (o : Object) : Prop
  | intro {env : Env} {cs : List (Frame × Await)} {fr : Frame} {w : World}
      {S : Var → Int64 → Prop} {p : Address}
      (run : Watched env g cs ⟨fr, cs⟩ w fr S) (block : fr.block.id = b)
      (code : fr.code = fr.block.code.drop i) (get : fr.get v = .ref p)
      (object : w.heap.object p = .ok o) (kept : ∀ n, S v n → n = Int64.ofInt o.variant)

/-- A record has one variant only. -/
theorem fields_record {pool : Pool} {t : TypeId} {n : Int} {shape : TypeDef} {ts : List TypeId}
    (hshape : pool.shape? t = some shape) (hkind : shape.kind = .record)
    (h : pool.fields t n = .ok ts) : n = 0 := by
  rw [Pool.fields, hshape] at h
  cases shape with
  | record name fs =>
    dsimp only at h
    split at h
    · next x hx =>
      unfold Pool.at? at hx
      split at hx
      · cases hx
      · next hn =>
        cases fs with
        | none => cases hx
        | some fs =>
          have hlt := (List.getElem?_eq_some_iff.1 hx).1
          simp only [TypeDef.variants, length_singleton] at hlt
          omega
    · cases h
  | builtin x => cases x <;> cases hkind
  | _ => cases hkind

/-- Where a call meets an object, of a variant that the type of the variable
has, the variant that is known is the one that the object has. -/
theorem Meets.known (hf : WellFormed g) {pool : Pool} {block : Block} {i : Nat} {o : Object}
    {t : TypeId} {ts : List TypeId} {k : Int} (h : Meets g b i v o)
    (htyped : g.type? v = some t) (hvariant : pool.fields t o.variant = .ok ts)
    (hblock : g.block? b = some block)
    (hk : knownVariant? pool g b (block.code.take i) v = .ok (some k)) :
    Int64.ofInt k = Int64.ofInt o.variant := by
  obtain @⟨env, cs, fr, w, S, p, hrun, rfl, hcode, hget, -, hkept⟩ := h
  obtain ⟨-, ⟨-, before, haware⟩ | ⟨top, more, a, before, hc, -⟩⟩ := hrun.aware hf
  · obtain rfl := Option.some.inj (hblock.symm.trans haware.block)
    have hbefore : before = fr.block.code.take i := by
      refine append_cancel_right (haware.code.symm.trans ?_)
      rw [hcode, take_append_drop]
    unfold knownVariant? at hk
    rw [htyped] at hk
    dsimp only at hk
    split at hk
    · cases hk
    · next shape hshape =>
      split at hk
      · next hkind =>
        cases hk
        rw [fields_record hshape hkind hvariant]
      · rw [← hbefore] at hk
        exact hkept _ (haware.known v _ k _ hk hget)
  · have hlen := congrArg length (Config.mk.inj hc).2
    simp only [length_append, length_cons] at hlen
    omega

end RefCount.Reuse
