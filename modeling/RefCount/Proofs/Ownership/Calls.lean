/-
What calls do to who holds what. A call takes over the arguments that its
function does not borrow. A function of the host releases those itself, and a
function of the program starts with a frame that owns them.

A closure is called with references of its own to what it has captured, and
what is left of its arguments is released when it is done; that is known from
the number of captured values, so the closure must be there until then.
-/
import Mathlib
import RefCount.Proofs.Ownership.Frames
import RefCount.Proofs.Ownership.Operations
import RefCount.Proofs.Plain.Typed

namespace RefCount.Ownership

open Ir List Option Multiset
open Machine
open Machine.Value (refsAll)

variable {env : Env} {B R : Multiset Address} {w : World}
variable {modes : Option (List Mode)} {name : String} {host : List Value → Run Value}
  {args : List Value} {h : Heap} {p : Address} {f : Func}

-- ======== arguments

/-- Whether a place is borrowed, as the machine asks. -/
theorem takesOver_eq_false {i : Nat} :
    Borrow.takesOver modes i = false ↔ (modes.getD [])[i]? = some .borrowed := by
  unfold Borrow.takesOver
  cases modes with
  | none => simp
  | some ms =>
    rw [bind_some, getD_some]
    cases ms[i]? with
    | none => simp
    | some m => cases m <;> simp

/-- Every object that there is releases all that it holds. -/
theorem allComplete (hdrops : env.drops = none) (h : Heap) : AllComplete env h :=
  fun _ o _ => complete_of_drops hdrops o

/-- Releasing one of the values for which counts are exact keeps what the
others reach. -/
theorem release_keeps (hdrops : env.drops = none) {v : Value} (hx : w.heap.Exact (v.refs + R)) :
    Safe (release env v) w fun _ w' => w'.heap.Exact R ∧ Heap.Keeps R w.heap w'.heap := by
  refine (release_exact (allComplete hdrops _) hx).mono fun _ w' ⟨hx', hs⟩ => ⟨hx', ?_⟩
  exact Heap.keeps_of_agree hx hx' (le_add_left R _) le_rfl hs.agree

/-- A function of the host releases the arguments that it takes over. -/
theorem releaseArgs_safe (hdrops : env.drops = none) {g : Value × Nat → Run Unit}
    (hg : ∀ a i, g (a, i) = if (modes.getD [])[i]? =
      some .borrowed then return () else inContext (.inReleaseArg i) (release env a)) :
    ∀ {args : List Value} {i : Nat} {w : World}, w.heap.Exact (refsAll (handed modes i args) + R) →
      Safe ((args.zipIdx i).forM g) w
        fun _ w' => w'.heap.Exact R ∧ Heap.Keeps R w.heap w'.heap := by
  intro args
  induction args with
  | nil =>
    intro i w hx
    rw [handed, pick, Value.refsAll_nil, zero_add] at hx
    exact .pure ⟨hx, .refl⟩
  | cons a args ih =>
    intro i w hx
    rw [zipIdx_cons]
    rw [handed, pick] at hx
    by_cases ht : Borrow.takesOver modes i = true
    · have hne : ¬(modes.getD [])[i]? = some .borrowed := by
        rw [← takesOver_eq_false, ht]
        simp
      rw [if_pos ht, Value.refsAll_cons, add_assoc] at hx
      refine .forM_cons ?_
      rw [hg, if_neg hne]
      refine Safe.inContext (fun _ => rfl) ((release_keeps hdrops hx).mono ?_)
      rintro _ w' ⟨hx', hk⟩
      refine (ih hx').mono ?_
      rintro _ w'' ⟨hx'', hk'⟩
      exact ⟨hx'', (hk.mono (le_add_left R _)).trans hk'⟩
    · have he : (modes.getD [])[i]? = some .borrowed := takesOver_eq_false.1 (by simpa using ht)
      rw [if_neg ht] at hx
      refine .forM_cons ?_
      rw [hg, if_pos he]
      exact .pure (ih hx)

-- ======== host

/-- A function of the host keeps everything, and gives an owned result. -/
theorem host_safe (hb : builtin? env name = some host) (hroom : w.heap.HasRoom)
    (hx : w.heap.Exact R) (hargs : ∀ v ∈ args, Within w.heap R v)
    (hasks : name = "print" → ∀ v, args.head? = some v → Plain.isObject (treeOf env.pool w.heap v) =
      true) : Safe (host args) w (Yields env.pool R w.heap
      (Plain.builtin? env.pool name (args.map (treeOf env.pool w.heap)))) := by
  have hunit : ∀ w' : World, w'.heap = w.heap →
      Yields env.pool R w.heap (some (.leaf .unit)) .unit w' := by
    intro w' hw'
    refine ⟨?_, ?_, by rw [treeOf_unit]⟩
    · rw [hw', Value.refs_unit, add_zero]
      exact hx
    · rw [hw']
      exact .refl
  unfold builtin? at hb
  split at hb
  · -- print
    cases hb
    cases args with
    | nil => exact .bind Safe.fault
    | cons a args =>
      obtain ⟨p, c, rfl, hc, -⟩ := ref_of_isObject (hasks rfl a rfl)
      refine .bind (.pure (.bind (.objectAt hc (.bind (.printLine fun w' hw' => ?_)))))
      exact .pure (hunit w' hw')
  · -- print_int
    cases hb
    by_cases hout : env.hasOutput = true
    · cases args with
      | nil =>
        simp only [hout, if_true]
        exact .bind Safe.fault
      | cons a args =>
        simp only [hout, if_true]
        refine .bind (.pure (.bind (.printLine fun w' hw' => ?_)))
        exact .pure (hunit w' hw')
    · simp only [hout]
      exact .pure (hunit w rfl)
  · -- int_to_str
    cases hb
    cases args with
    | nil => exact .bind Safe.fault
    | cons a args =>
      refine .bind (.pure ?_)
      have hstr := @newStr_safe env.pool _ _ (intBytes a.toInt) hroom hx
      rw [← @toInt_treeOf env.pool w a] at hstr ⊢
      exact hstr
  · -- drop
    cases hb
    exact .pure (hunit w rfl)
  · -- keep
    cases hb
    cases args with
    | nil => exact .bind Safe.fault
    | cons a args =>
      have ha := hargs a mem_cons_self
      refine .bind (.pure (.bind ((retain_ends a fun p hp => ?_).mono ?_)))
      · exact live_of_within hx ha hp
      · intro _ w' hr
        have hx' := hr.exact (fun p hp => live_of_within hx ha hp) hx
        have hk : Heap.Keeps R w.heap w'.heap := fun p _ => hr.obj p
        refine .pure ⟨by rw [add_comm]; exact hx', hk, ?_⟩
        rw [treeOf_keeps ha hk]
        rfl
  · cases hb

theorem callHost_safe (hdrops : env.drops = none) (hb : builtin? env name = some host)
    (hroom : w.heap.HasRoom) (hx : w.heap.Exact (refsAll (handed (env.sigs.find? name) 0 args) + B))
    (hargs : ∀ v ∈ args, Within w.heap (refsAll (handed (env.sigs.find? name) 0 args) + B) v)
    (hasks : name = "print" → ∀ v, args.head? = some v → Plain.isObject (treeOf env.pool w.heap v) =
      true) : Safe (callHost env name host args) w (Yields env.pool B w.heap
      (Plain.builtin? env.pool name (args.map (treeOf env.pool w.heap)))) := by
  refine Safe.inContext (fun _ => rfl) (.bind ((host_safe hb hroom hx hargs hasks).mono ?_))
  rintro v w' ⟨hx', hk, ht⟩
  rw [add_assoc] at hx'
  refine .bind ((releaseArgs_safe hdrops (fun _ _ => rfl) hx').mono ?_)
  rintro _ w'' ⟨hx'', hk'⟩
  refine .pure ⟨hx'', ?_, ?_⟩
  · exact (hk.mono (le_add_left B _)).trans (hk'.mono (le_add_right B _))
  · rw [ht, treeOf_keeps (within_refs.mono (le_add_left _ B)) hk']

-- ======== closures

/-- A closure is called with references of its own to what it hands over of
the values that it has captured. -/
theorem retainCaptures_safe : ∀ {captures : List Value} {i : Nat} {w : World},
      (∀ v ∈ captures, ∀ p ∈ v.refs, w.heap.Live p) → Safe ((captures.zipIdx i).forM fun (v, i) =>
          if (modes.getD [])[i]? = some .borrowed then return ()
          else inContext (.inCapture i) (retain v)) w
        fun _ w' => w.heap.Raised w'.heap (refsAll (handed modes i captures)) := by
  intro captures
  induction captures with
  | nil => exact fun _ => Heap.Raised.refl
  | cons v captures ih =>
    intro i w hlive
    rw [zipIdx_cons, handed, pick]
    refine .forM_cons ?_
    by_cases ht : Borrow.takesOver modes i = true
    · have hne : ¬(modes.getD [])[i]? = some .borrowed := by
        rw [← takesOver_eq_false, ht]
        simp
      simp only [hne, if_false]
      rw [if_pos ht, Value.refsAll_cons]
      refine Safe.inContext (fun _ => rfl) ?_
      refine (retain_ends v (hlive v mem_cons_self)).mono fun _ w' hr => ?_
      refine (ih fun u hu p hp => ?_).mono fun _ w'' hr' => hr.trans hr'
      exact hr.live_iff.2 (hlive u (mem_cons_of_mem v hu) p hp)
    · have he : (modes.getD [])[i]? = some .borrowed := takesOver_eq_false.1 (by simpa using ht)
      simp only [he, if_true]
      rw [if_neg ht]
      exact .pure (ih fun u hu => hlive u (mem_cons_of_mem v hu))

/-- The number of values that a closure has captured. -/
theorem cell_of_obj {o : Object} (ho : h.obj? p = some o) :
    ((h.cell? p).map (·.object.fields.length)).getD 0 = o.fields.length := by
  unfold Heap.obj? Heap.find at ho
  cases hc : h.cell? p with
  | none =>
    rw [hc] at ho
    cases ho
  | some c =>
    rw [hc] at ho
    dsimp only at ho
    split at ho
    · next hf =>
      split at hf
      · cases hf
      · cases hf
        cases ho
        rfl
    · cases ho

/-- What a function has only borrowed of the arguments of a closure is
released at the end. The closure is still there then. -/
theorem releaseIndirect_safe (hdrops : env.drops = none) {n : Nat} :
    ∀ {args : List Value} {i : Nat} {w : World},
      w.heap.Exact (refsAll (lent modes (n + i) args) + B) → w.heap.Reach B p →
      (∃ o, w.heap.obj? p = some o ∧ o.fields.length = n) →
      Safe ((args.zipIdx i).forM fun (a, i) => do
          let captured := (((← getHeap).cell? p).map (·.object.fields.length)).getD 0
          if (modes.getD [])[captured + i]? = some .borrowed then release env a
          else return ()) w
        fun _ w' => w'.heap.Exact B ∧ Heap.Keeps B w.heap w'.heap := by
  intro args
  induction args with
  | nil =>
    intro i w hx _ _
    rw [lent, pick, Value.refsAll_nil, zero_add] at hx
    exact .pure ⟨hx, .refl⟩
  | cons a args ih =>
    rintro i w hx hp ⟨o, ho, hn⟩
    rw [zipIdx_cons]
    refine .forM_cons (.bind (.getHeap ?_))
    rw [lent, pick] at hx
    have hcaptured := (cell_of_obj ho).trans hn
    simp only [hcaptured]
    by_cases ht : Borrow.takesOver modes (n + i) = true
    · have hne : ¬(modes.getD [])[n + i]? = some .borrowed := by
        rw [← takesOver_eq_false, ht]
        simp
      rw [if_neg (by simp [ht])] at hx
      simp only [hne, if_false]
      exact .pure (ih (i := i + 1) hx hp ⟨o, ho, hn⟩)
    · have he : (modes.getD [])[n + i]? = some .borrowed := takesOver_eq_false.1 (by simpa using ht)
      rw [if_pos (by simpa using ht), Value.refsAll_cons, add_assoc] at hx
      simp only [he, if_true]
      refine (release_keeps hdrops hx).mono ?_
      rintro _ w' ⟨hx', hk⟩
      have hkB := hk.mono (le_add_left B _)
      have ho' : w'.heap.obj? p = some o := by rw [hkB p hp, ho]
      refine (ih (i := i + 1) hx' (hp.keeps hkB) ⟨o, ho', hn⟩).mono ?_
      rintro _ w'' ⟨hx'', hk'⟩
      exact ⟨hx'', hkB.trans hk'⟩

-- ======== functions

/-- There is a plan for each function of a program, and calls go by the modes
of its parameters. -/
structure Planned (env : Env) (r : Func → Roles) (S : Func → Plan) : Prop where
  drops : env.drops = none
  modes : ∀ name f, env.funcs.lookup name = some f → env.sigs.find? name = some f.modes
  follows : ∀ name f, env.funcs.lookup name = some f →
    Follows env.sigs (r f) (S f) f

/-- A frame that follows the plan of its function, with its plain
counterpart. -/
structure Active (env : Env) (r : Func → Roles) (S : Func → Plan) (h : Heap)
    (A : Multiset Address) (σ : Holding) (fr : Frame) (pf : Plain.Frame) : Prop where
  plan : Follows env.sigs (r fr.func) (S fr.func) fr.func
  same : Matches env.pool (r fr.func) h A σ fr pf
  ahead : Ahead env.sigs (r fr.func) (S fr.func) fr.func fr.block.term fr.code σ

/-- What a call leads to in a world, and what it leads to without counts. -/
inductive Enters (env : Env) (r : Func → Roles) (S : Func → Plan) (B : Multiset Address)
    (h : Heap) (w : World) : Entered → Plain.Entered → Prop
  | result {v : Value} {t : Machine.Tree} (hv : Yields env.pool B h (some t) v w) :
      Enters env r S B h w (.result v) (.result t)
  | frame {fr : Frame} {pf : Plain.Frame} {σ : Holding} (hheap : w.heap = h)
      (hx : h.Exact (B + roots σ fr)) (hfr : Active env r S h B σ fr pf) :
      Enters env r S B h w (.frame fr) (.frame pf)

/-- The arguments of a call are within reach. -/
theorem within_of_arg (hlent : ∀ v ∈ lent modes 0 args, Within h B v) :
    ∀ v ∈ args, Within h (refsAll (handed modes 0 args) + B) v := by
  intro v hv p hp
  rcases @mem_handed_or_lent _ modes _ 0 _ hv with hv | hv
  · exact .root (mem_add.2 (.inl (Value.mem_refsAll.2 ⟨v, hv, hp⟩)))
  · exact (hlent v hv p hp).mono (le_add_left B _)

/-- The modes of a function are those of its parameters. -/
theorem takesOver_modes {k : Nat} {p : Param} (hp : f.params[k]? = some p) :
    Borrow.takesOver (some f.modes) k = !decide (p.mode = .borrowed) := by
  unfold Borrow.takesOver Func.modes
  rw [bind_some, getElem?_map, hp]
  cases hm : p.mode <;> simp [hm]

/-- A frame that has just been started is one of its function. -/
theorem startFrame_func {ts : List Machine.Tree} {pf : Plain.Frame}
    (h : Plain.startFrame f ts = some pf) : pf.func = f := by
  obtain ⟨pf', hall, hgo⟩ := bind_eq_some_iff.1 h
  obtain ⟨b, -, rfl⟩ := map_eq_some_iff.1 hgo
  exact assignAll_func hall

/-- A function starts as its plan says. -/
theorem startFrame_safe (pool : Pool) {r : Roles} {σ : Holding} (hs : Starts r f σ)
    (hlen : args.length = f.params.length)
    (hx : w.heap.Exact (refsAll (handed (some f.modes) 0 args) + B))
    (hlent : ∀ v ∈ lent (some f.modes) 0 args, Within w.heap B v)
    (hbare : ∀ pf, Plain.startFrame f (args.map (treeOf pool w.heap)) = some pf → Bares r pf) :
    Safe (startFrame f args) w fun fr w' => w' = w ∧ ∃ pf b,
      Plain.startFrame f (args.map (treeOf pool w.heap)) = some pf ∧
      fr.func = f ∧ f.block? f.entry = some b ∧ fr.block = b ∧ fr.code = b.code ∧
      Matches pool r w.heap B σ fr pf ∧ roots σ fr = refsAll (handed (some f.modes) 0 args) := by
  unfold startFrame
  refine .bind (setAll_safe fun _ hsize => Safe.goTo fun b hb => ⟨rfl, ?_⟩)
  rw [assignedAll_same.1] at hb
  obtain ⟨pf, hpf⟩ := @assignAll_isSome (f.params.map (·.var))
    (args.map (treeOf pool w.heap)) ⟨f, default, [], fun _ => none⟩
    (by simp [hlen])
  have hlive : ∀ v ∈ args, ∀ p ∈ v.refs, w.heap.Live p :=
    fun v hv p hp => live_of_within hx (within_of_arg hlent v hv) hp
  have hstart : Plain.startFrame f (args.map (treeOf pool w.heap)) =
      some { pf with block := b, code := b.code } := by
    unfold Plain.startFrame Plain.Frame.goTo
    dsimp only
    rw [bind_eq_bind, hpf, bind_some, assignAll_func hpf, hb]
    rfl
  have hbares : Bares r { pf with block := b, code := b.code } := hbare _ hstart
  have hrefs := refs_of_bares hs.nodup (by simp [hlen]) hlive hpf hbares
  obtain ⟨hm, hroots⟩ := (matches_empty (r := r) (A := B) f f.types.size).start hs.nodup
    (fun k p hp => by rw [zero_add]; exact takesOver_modes hp)
    (fun p hp => hsize p.var (mem_map_of_mem hp))
    (fun p hp => ⟨rfl, hs.assigned p hp, fun hm => (hs.owned p hp hm).1⟩)
    hlent hrefs hpf
  have hparam : ∀ x, (pf.vars x).isSome → ∃ p ∈ f.params, p.var = x := by
    intro x hx
    by_contra hno
    rw [assignAll_of_notMem hpf (by simpa using hno)] at hx
    cases hx
  refine ⟨_, b, hstart, assignedAll_same.1, hb, rfl, rfl, Matches.goTo (hm.weaken ?_ ?_) b, ?_⟩
  · intro x hset hread
    obtain ⟨p, hp, rfl⟩ := hparam x hset
    by_cases hmode : p.mode = .borrowed
    · exact .inr (.inl (hs.borrowed p hp hmode).1)
    · by_cases hc : r.counted p.var = true
      · refine .inr (.inr (.inl ?_))
        rw [start_own hs.nodup hp rfl, if_pos ⟨hmode, hc⟩]
        exact one_pos
      · exact .inl (by simpa using hc)
  · intro x q hq
    rw [hs.part] at hq
    cases hq
  · -- where anything is held, the plan says what has just been assigned
    have hempty : roots ⟨fun _ => 0, fun _ => none⟩
        ⟨f, default, [], Array.replicate f.types.size none⟩ = 0 := by simp [roots]
    rw [hempty, add_zero] at hroots
    rw [← hroots]
    refine roots_congr fun x hne => ?_
    have hset : (pf.vars x).isSome := by
      rw [← hm.set]
      by_contra hno
      rw [Bool.not_eq_true] at hno
      exact hne (refs_of_not_isSet hno)
    obtain ⟨p, hp, rfl⟩ := hparam x hset
    have hc : r.counted p.var = true := by
      by_contra hc
      exact hne (hm.bare p.var (by simpa using hc))
    rw [start_own hs.nodup hp rfl]
    by_cases hmode : p.mode = .borrowed
    · rw [if_neg fun h => h.1 hmode, (hs.borrowed p hp hmode).2]
    · rw [if_pos ⟨hmode, hc⟩, (hs.owned p hp hmode).2 hc]

/-- A call takes over what is handed to it, and gives an owned result or
starts a function that owns what it has been handed. -/
theorem enter_safe {r : Func → Roles} {S : Func → Plan} (hp : Planned env r S) {depth : Nat}
    (hroom : w.heap.HasRoom) (hx : w.heap.Exact (refsAll (handed (env.sigs.find? name) 0 args) + B))
    (hlent : ∀ v ∈ lent (env.sigs.find? name) 0 args, Within w.heap B v)
    (hasks : Plain.EnterAsks (.standard env.pool env.funcs) name
      (args.map (treeOf env.pool w.heap)))
    (hbare : ∀ pf, Plain.enter (.standard env.pool env.funcs) name
      (args.map (treeOf env.pool w.heap)) = some (.frame pf) → Bares (r pf.func) pf) :
    Safe (enter env depth name args) w fun e w' => ∃ e',
      Plain.enter (.standard env.pool env.funcs) name (args.map (treeOf env.pool w.heap)) =
        some e' ∧ Enters env r S B w.heap w' e e' := by
  unfold enter
  refine .bind (.tally ?_)
  -- counting the call leaves the heap alone
  generalize hw : ({ w with stats := { w.stats with calls := w.stats.calls + 1 } } : World) = w₁
  obtain hheap : w.heap = w₁.heap := by rw [← hw]
  rw [hheap] at hroom hx hlent hasks hbare ⊢
  clear hw hheap
  unfold Plain.enter at hbare ⊢
  dsimp only at hbare ⊢
  cases hf : env.funcs.lookup name with
  | none =>
    cases hb : builtin? env name with
    | none => exact .throw fun _ h => RunError.noConfusion h
    | some host =>
      refine .bind ((callHost_safe hp.drops hb hroom hx (within_of_arg hlent) ?_).mono ?_)
      · intro hn v hv
        exact hasks hf hn _ (by rw [head?_map, hv]; rfl)
      · intro v w' hv
        have htree := hv.tree
        exact .pure ⟨_, by rw [htree]; rfl, .result ⟨hv.exact, hv.keeps, rfl⟩⟩
  | some f =>
    rw [hf] at hbare
    dsimp only at hbare ⊢
    split
    · exact .throw fun _ h => RunError.noConfusion h
    · next hlen =>
      rw [not_not] at hlen
      rw [length_map, if_pos hlen] at hbare ⊢
      split
      · exact .throw fun _ h => RunError.noConfusion h
      · obtain ⟨σ, hσ, hs⟩ := (hp.follows name f hf).entry
        rw [hp.modes name f hf] at hx hlent
        refine .bind ((startFrame_safe env.pool hs hlen hx hlent fun pf hpf => ?_).mono ?_)
        · have hbares := hbare pf (by rw [hpf]; rfl)
          rwa [startFrame_func hpf] at hbares
        · rintro fr w' ⟨rfl, pf, b, hpf, rfl, hb, rfl, hcode, hm, hroots⟩
          refine .pure ⟨_, by rw [hpf]; rfl, .frame rfl ?_ ⟨hp.follows name _ hf, hm, ?_⟩⟩
          · rw [hroots, add_comm]
            exact hx
          · rw [hcode]
            exact (hp.follows name _ hf).block _ _ σ hb hσ

end RefCount.Ownership
