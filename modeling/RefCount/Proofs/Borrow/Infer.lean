/-
The inferred modes are the least ones. Of all assignments of modes that borrow
candidates only, and none of which an alias escapes, the inferred one takes over
the fewest parameters (`infer_least`).

# The argument

What escapes from a function grows with what its callees take over. Rounds start
with every candidate borrowed, which is below every solution, and take over a
parameter only because it escapes already, which it does under every solution
above. So rounds stay below all solutions, and what they have taken over
escapes for good. Each round that changes something lends less, so that there
are no more rounds than candidates, and one more; a round that changes nothing
has found a solution.

That the round looks at the functions in order, and sees at once what it has
found, does not matter: the least solution is the same for every order.
-/
import Mathlib
import RefCount.Borrow.Infer
import RefCount.Proofs.Borrow.Roots
import RefCount.Proofs.Outcome

namespace RefCount

open List Option Signatures

-- ======== signatures

namespace Signatures

variable {s t : Signatures} {name : String} {modes : List Mode} {i : Nat}

/-- A function borrows its parameter at a place. -/
def Lends (s : Signatures) (name : String) (i : Nat) : Prop :=
  (s.find? name).bind (·[i]?) = some .borrowed

/-- Modes that take over no more than others. -/
def Le (s t : Signatures) : Prop := ∀ name i, t.Lends name i → s.Lends name i

theorem lends_of_find (h : s.find? name = some modes) :
    s.Lends name i ↔ modes[i]? = some .borrowed := by
  unfold Lends
  rw [h]
  rfl

theorem le_of_find (h : ∀ name, s.find? name = t.find? name) : s.Le t := by
  intro name i ht
  unfold Lends at ht ⊢
  rw [h]
  exact ht

theorem find?_put (s : Signatures) (name other : String) (modes : List Mode) :
    (s.put name modes).find? other = if other = name then some modes else s.find? other := by
  unfold find?
  induction s with
  | nil =>
    rw [put, lookup_cons]
    by_cases h : other = name
    · simp [h]
    · simp [h, beq_false_of_ne h]
  | cons e s ih =>
    obtain ⟨n, ms⟩ := e
    rw [put]
    split
    · next hn =>
      subst hn
      rw [lookup_cons, lookup_cons]
      by_cases h : other = n
      · simp [h]
      · simp [h, beq_false_of_ne h]
    · next hn =>
      rw [lookup_cons, lookup_cons, ih]
      by_cases h : other = n
      · simp [h, hn]
      · simp [beq_false_of_ne h]

theorem lends_put {other : String} : (s.put name modes).Lends other i ↔
    if other = name then modes[i]? = some .borrowed else s.Lends other i := by
  unfold Lends
  rw [find?_put]
  by_cases h : other = name
  · rw [if_pos h, if_pos h]
    rfl
  · rw [if_neg h, if_neg h]

end Signatures

namespace Borrow

open Ir

variable {x : Instr} {i : Nat} {b : Block} {stage : Stage} {params : List Param} {modes : List Mode}
  {g : Func} {gs : List Func}

-- ======== escape

/-- A value escapes through an operand of an instruction: it is stored,
captured, or passed where a reference is taken over. -/
inductive Yields (sigs : Signatures) : Instr → Var → Prop
  | construct {dst v : Var} {t : TypeId} {n : Int} {args : List Var} (h : v ∈ args) :
      Yields sigs (.construct dst t n args) v
  | reuse {dst token v : Var} {t : TypeId} {n : Int} {args : List Var} (h : v ∈ args) :
      Yields sigs (.reuse dst token t n args) v
  | closure {dst v : Var} {func : String} {captures : List Var} (h : v ∈ captures) :
      Yields sigs (.closure dst func captures) v
  | callClosure {dst c v : Var} {args : List Var} (h : v ∈ args) :
      Yields sigs (.callClosure dst c args) v
  | set {u v : Var} {field : Int} : Yields sigs (.set u field v) v
  | call {dst v : Var} {func : String} {args : List Var} {tail : Bool} {i : Nat}
      (h : args[i]? = some v) (hi : ¬sigs.Lends func i) : Yields sigs (.call dst func args tail) v

/-- A value escapes through an operand of a terminator: it is returned, or
handed to another block. -/
inductive TermYields : Term → Var → Prop
  | ret {v : Var} : TermYields (.ret v) v
  | jump {v : Var} {t : Target} {args : List Var} (h : v ∈ args) : TermYields (.jump t args) v

/-- An alias of a parameter escapes. A variable that is not counted carries no
reference. -/
def Escapes (cls : Classes) (sigs : Signatures) (f : Func) (p : Var) : Prop :=
  ∃ b ∈ f.blocks, ∃ v, ((∃ x ∈ b.code, Yields sigs x v) ∨ ∃ t, b.term = some t ∧ TermYields t v) ∧
    cls.needsCount (f.typeOf v) = true ∧ Leads f v p

variable {f : Func} {v p : Var} {sigs sigs' : Signatures} {cls : Classes}

/-- The more is taken over the more escapes. -/
theorem Yields.mono (h : Yields sigs x v) (hle : sigs.Le sigs') : Yields sigs' x v := by
  cases h with
  | construct h => exact .construct h
  | reuse h => exact .reuse h
  | closure h => exact .closure h
  | callClosure h => exact .callClosure h
  | set => exact .set
  | call h hi => exact .call h fun hl => hi (hle _ _ hl)

/-- With fewer borrowed parameters more escapes. -/
theorem Escapes.mono (h : Escapes cls sigs f p) (hle : sigs.Le sigs') : Escapes cls sigs' f p := by
  obtain ⟨b, hb, v, hv, hrest⟩ := h
  refine ⟨b, hb, v, hv.imp_left ?_, hrest⟩
  rintro ⟨x, hx, hyields⟩
  exact ⟨x, hx, hyields.mono hle⟩

theorem takesOver_iff {func : String} :
    takesOver (sigs.find? func) i = true ↔ ¬sigs.Lends func i := by
  unfold takesOver Lends
  split
  · next h => simp [h]
  · next h => simp only [true_iff]; exact h

/-- What escapes by an instruction. -/
theorem mem_escapesInstr : v ∈ escapesInstr sigs x ↔ Yields sigs x v := by
  constructor
  · intro h
    cases x with
    | construct dst t n args => exact .construct h
    | reuse dst token t n args => exact .reuse h
    | closure dst func captures => exact .closure h
    | callClosure dst c args => exact .callClosure h
    | set u field value =>
      obtain rfl := mem_singleton.1 h
      exact .set
    | call dst func args tail =>
      obtain ⟨⟨a, i⟩, hmem, ha⟩ := mem_filterMap.1 h
      dsimp only at ha
      split at ha
      · next htakes =>
        cases ha
        exact .call (mem_zipIdx_iff_getElem?.1 hmem) (takesOver_iff.1 htakes)
      · cases ha
    | _ => cases h
  · intro h
    cases h with
    | construct h => exact h
    | reuse h => exact h
    | closure h => exact h
    | callClosure h => exact h
    | set => exact .head _
    | call h hi =>
      refine mem_filterMap.2 ⟨(v, _), mem_zipIdx_iff_getElem?.2 h, ?_⟩
      dsimp only
      rw [if_pos (takesOver_iff.2 hi)]

theorem mem_escapesTerm {t : Term} : v ∈ escapesTerm t ↔ TermYields t v := by
  constructor
  · intro h
    cases t with
    | ret u =>
      obtain rfl := mem_singleton.1 h
      exact .ret
    | jump target args => exact .jump h
    | _ => cases h
  · intro h
    cases h with
    | ret => exact .head _
    | jump h => exact h

theorem mem_escapesBlock : v ∈ escapesBlock sigs b ↔
    (∃ x ∈ b.code, Yields sigs x v) ∨ ∃ t, b.term = some t ∧ TermYields t v := by
  unfold escapesBlock
  rw [mem_append, mem_flatMap]
  refine or_congr (by simp only [mem_escapesInstr]) ?_
  cases b.term with
  | none => simp
  | some t => simp [mem_escapesTerm]

/-- What escapes is read. -/
theorem Yields.mem_uses (h : Yields sigs x v) : v ∈ x.uses := by
  cases h with
  | construct h => exact h
  | reuse h => exact .tail _ h
  | closure h => exact h
  | callClosure h => exact .tail _ h
  | set => exact .tail _ (.head _)
  | call h => exact mem_of_getElem? h

theorem mem_reads_of_escapes (h : v ∈ escapesBlock sigs b) : v ∈ b.reads := by
  unfold Block.reads
  rcases mem_escapesBlock.1 h with ⟨x, hx, hyields⟩ | ⟨t, hterm, hyields⟩
  · exact mem_append_left _ (mem_flatMap.2 ⟨x, hx, hyields.mem_uses⟩)
  · refine mem_append_right _ ?_
    rw [Block.termUses, hterm]
    cases hyields with
    | ret => exact .head _
    | jump h => exact h

/-- What escapes is found. -/
theorem escaping_spec (hf : Valid stage f) (sigs : Signatures) (cls : Classes) :
    ∃ escaped, escaping f sigs cls = .ok escaped ∧
      ∀ p, escaped.contains p = true ↔ Escapes cls sigs f p := by
  obtain ⟨roots, hroots, hsize, hleads⟩ := Roots.ofFunc_spec hf.nodup hf.bound hf.defined
  have hget : ∀ v ∈ f.blocks.toList.flatMap (escapesBlock sigs),
      (do
        let root ← roots.get v
        return if cls.needsCount (f.typeOf v) then root else none) =
      (.ok (if cls.needsCount (f.typeOf v) then roots.getD v none else none) :
        Except Fault (Option Var)) := by
    intro v hv
    obtain ⟨b, hb, hv⟩ := mem_flatMap.1 hv
    have hdef := hf.defined b (Array.mem_toList_iff.1 hb) v (mem_reads_of_escapes hv)
    rw [Roots.get_ok (hsize ▸ hf.bound v hdef)]
    rfl
  have hrun : escaping f sigs cls = .ok (.ofList
      ((f.blocks.toList.flatMap (escapesBlock sigs)).filterMap fun v =>
        if cls.needsCount (f.typeOf v) then roots.getD v none else none)) := by
    unfold escaping
    rw [hroots]
    refine Eq.trans ?_ (congrArg (fun r => r.map BitSet.ofList) (filterMapM_ok hget))
    rfl
  refine ⟨_, hrun, fun p => ?_⟩
  rw [BitSet.contains_ofList, contains_iff_mem, mem_filterMap]
  constructor
  · rintro ⟨v, hv, hroot⟩
    obtain ⟨b, hb, hv⟩ := mem_flatMap.1 hv
    split at hroot
    · next hcounted =>
      exact ⟨b, Array.mem_toList_iff.1 hb, v, mem_escapesBlock.1 hv, hcounted, (hleads v p).1 hroot⟩
    · cases hroot
  · rintro ⟨b, hb, v, hv, hcounted, hlead⟩
    refine ⟨v, mem_flatMap.2 ⟨b, Array.mem_toList_iff.2 hb, mem_escapesBlock.2 hv⟩, ?_⟩
    rw [if_pos hcounted]
    exact (hleads v p).2 hlead

-- ======== solutions

variable {fs : List Func} {externs : Signatures}

/-- A parameter that may be borrowed: it is counted, and its function is never
made a closure. -/
def Candidate (fs : List Func) (cls : Classes) (f : Func) (p : Param) : Prop :=
  cls.needsCount p.type = true ∧
    ∀ g ∈ fs, ∀ dst captures, Instr.closure dst f.name captures ∉ g.instrs

theorem mem_closureTargets {name : String} : name ∈ closureTargets fs ↔
    ∃ g ∈ fs, ∃ dst captures, Instr.closure dst name captures ∈ g.instrs := by
  unfold closureTargets
  rw [mem_flatMap]
  refine exists_congr fun g => and_congr_right fun _ => ?_
  rw [mem_filterMap]
  constructor
  · rintro ⟨x, hx, hname⟩
    split at hname
    · next dst func captures =>
      cases hname
      exact ⟨dst, captures, hx⟩
    · cases hname
  · rintro ⟨dst, captures, hx⟩
    exact ⟨_, hx, rfl⟩

theorem candidate_iff {p : Param} : Candidate fs cls f p ↔
    (cls.needsCount p.type && !(closureTargets fs).contains f.name) = true := by
  unfold Candidate
  rw [Bool.and_eq_true, Bool.not_eq_true', ← Bool.not_eq_true, contains_iff_mem, mem_closureTargets]
  simp only [not_exists, not_and]

instance (fs : List Func) (cls : Classes) (f : Func) (p : Param) :
    Decidable (Candidate fs cls f p) := decidable_of_iff _ candidate_iff.symm

/-- The number of parameters that may be borrowed. -/
def candidateCount (fs : List Func) (cls : Classes) : Nat :=
  (fs.map fun f => f.params.countP fun p => Candidate fs cls f p).sum

/-- Modes for the functions of a program beside those of the host: they borrow
candidates only, and no alias of what is borrowed escapes. -/
structure Solves (fs : List Func) (externs : Signatures) (cls : Classes) (sigs : Signatures) :
    Prop where
  keeps : ∀ name, name ∉ fs.map (·.name) → sigs.find? name = externs.find? name
  fits : ∀ f ∈ fs, ∃ modes, sigs.find? f.name = some modes ∧ modes.length = f.params.length
  candidate : ∀ f ∈ fs, ∀ (i : Nat) p, f.params[i]? = some p → sigs.Lends f.name i →
    Candidate fs cls f p
  stays : ∀ f ∈ fs, ∀ (i : Nat) p, f.params[i]? = some p → sigs.Lends f.name i →
    ¬Escapes cls sigs f p.var

/-- Modes on the way to the least solution: they are below all solutions, and
the candidates that have been taken over escape. -/
structure Approaches (fs : List Func) (externs : Signatures) (cls : Classes) (sigs : Signatures) :
    Prop where
  keeps : ∀ name, name ∉ fs.map (·.name) → sigs.find? name = externs.find? name
  fits : ∀ f ∈ fs, ∃ modes, sigs.find? f.name = some modes ∧ modes.length = f.params.length
  candidate : ∀ f ∈ fs, ∀ (i : Nat) p, f.params[i]? = some p → sigs.Lends f.name i →
    Candidate fs cls f p
  escaped : ∀ f ∈ fs, ∀ (i : Nat) p, f.params[i]? = some p → Candidate fs cls f p →
    ¬sigs.Lends f.name i → Escapes cls sigs f p.var
  below : ∀ T, Solves fs externs cls T → sigs.Le T

/-- A function is settled: nothing that it borrows escapes. -/
def SettledFor (cls : Classes) (sigs : Signatures) (f : Func) : Prop :=
  ∀ (i : Nat) p, f.params[i]? = some p → sigs.Lends f.name i → ¬Escapes cls sigs f p.var

theorem SettledFor.congr (h : SettledFor cls sigs f)
    (hfind : ∀ name, sigs.find? name = sigs'.find? name) : SettledFor cls sigs' f := by
  intro i p hi hl hesc
  refine h i p hi (le_of_find hfind _ _ hl) (hesc.mono ?_)
  exact le_of_find fun name => (hfind name).symm

-- ======== one round

/-- The modes of a function after a round, whether one was taken over, and how
many counted parameters are not borrowed. -/
structure Promoted (cls : Classes) (escaped : BitSet) (params : List Param) (modes : List Mode)
    (r : List Mode × Bool × Nat) : Prop where
  length : r.1.length = params.length
  lends : ∀ (i : Nat) p, params[i]? = some p →
    (r.1[i]? = some .borrowed ↔ modes[i]? = some .borrowed ∧ ¬escaped.contains p.var = true)
  unchanged : r.2.1 = false → r.1 = modes
  changed : r.2.1 = true → r.1.count .borrowed < modes.count .borrowed
  owned : (∀ (i : Nat) p, params[i]? = some p → modes[i]? = some .borrowed →
      cls.needsCount p.type = true) →
    r.2.2 + r.1.count .borrowed = params.countP (cls.needsCount ·.type)

theorem Promoted.le {escaped : BitSet} {r : List Mode × Bool × Nat}
    (h : Promoted cls escaped params modes r) : r.1.count .borrowed ≤ modes.count .borrowed := by
  cases hr : r.2.1 with
  | false => rw [h.unchanged hr]
  | true => exact (h.changed hr).le

/-- Parameters that escape become owned. -/
theorem promote_spec (cls : Classes) (escaped : BitSet) (hlen : modes.length = params.length) :
    ∃ r, promote cls escaped params modes = .ok r ∧ Promoted cls escaped params modes r := by
  induction params generalizing modes with
  | nil =>
    obtain rfl := eq_nil_of_length_eq_zero hlen
    refine ⟨_, rfl, rfl, fun i p hp => ?_, fun _ => rfl, fun h => ?_, fun _ => rfl⟩
    · cases hp
    · cases h
  | cons p ps ih =>
    cases modes with
    | nil => cases hlen
    | cons m ms =>
      obtain ⟨⟨ms', changed, owned⟩, hrun, h⟩ := ih (Nat.succ.inj hlen)
      have hlength : ∀ m' : Mode, (m' :: ms').length = (p :: ps).length :=
        fun _ => congrArg Nat.succ h.length
      have hrest : (∀ (i : Nat) q, (p :: ps)[i]? = some q → (m :: ms)[i]? = some .borrowed →
          cls.needsCount q.type = true) →
          owned + ms'.count .borrowed = ps.countP (cls.needsCount ·.type) :=
        fun hb => h.owned fun i => hb (i + 1)
      by_cases hp : m = .borrowed ∧ escaped.contains p.var = true
      · -- the parameter is taken over
        obtain ⟨rfl, hp⟩ := hp
        refine ⟨(.owned :: ms', true, owned + if cls.needsCount p.type then 1 else 0), ?_,
          hlength _, fun i q hq => ?_, fun hc => ?_, fun _ => ?_, fun hb => ?_⟩
        · rw [promote, hrun, hp]
          rfl
        · cases i with
          | zero =>
            cases hq
            simp [hp]
          | succ i => exact h.lends i q hq
        · cases hc
        · have := h.le
          simp only [count_cons, beq_self_eq_true]
          simpa using this
        · have hcounted := hb 0 p rfl rfl
          have := hrest hb
          simp only [count_cons, countP_cons, hcounted]
          simp only [if_true, reduceCtorEq, beq_iff_eq, if_false]
          omega
      · -- the parameter keeps its mode
        refine ⟨(m :: ms', changed, owned + if m = .owned && cls.needsCount p.type then 1 else 0),
          ?_, hlength _, fun i q hq => ?_, fun hc => ?_, fun hc => ?_, fun hb => ?_⟩
        · have hp' : (m = .borrowed && escaped.contains p.var) = false := by simpa using hp
          rw [promote, hrun, hp']
          rfl
        · cases i with
          | zero =>
            cases hq
            simpa using fun hm => by simpa [hm] using hp
          | succ i => exact h.lends i q hq
        · exact congrArg (m :: ·) (h.unchanged hc)
        · have hlt : ms'.count .borrowed < ms.count .borrowed := h.changed hc
          simp only [count_cons]
          omega
        · have := hrest hb
          have hcounted := hb 0 p rfl
          simp only [count_cons, countP_cons]
          cases m with
          | owned => simp; omega
          | borrowed => simp [hcounted rfl]; omega

/-- The number of parameters that a function borrows. -/
def lentBy (sigs : Signatures) (f : Func) : Nat :=
  ((sigs.find? f.name).getD []).count .borrowed

/-- The number of parameters that functions borrow together. -/
def lent (fs : List Func) (sigs : Signatures) : Nat := (fs.map (lentBy sigs)).sum

/-- The number of counted parameters of functions. -/
def countedParams (cls : Classes) (fs : List Func) : Nat :=
  (fs.map fun f => f.params.countP (cls.needsCount ·.type)).sum

theorem lentBy_congr (h : sigs.find? f.name = sigs'.find? f.name) :
    lentBy sigs f = lentBy sigs' f := by
  unfold lentBy
  rw [h]

theorem lent_congr (h : ∀ f ∈ fs, sigs.find? f.name = sigs'.find? f.name) :
    lent fs sigs = lent fs sigs' := by
  unfold lent
  rw [map_congr_left fun f hf => lentBy_congr (h f hf)]

/-- Functions of a program are told apart by their names. -/
theorem eq_of_name (hnames : (fs.map (·.name)).Nodup) (hf : f ∈ fs) (hg : g ∈ fs)
    (h : f.name = g.name) : f = g := inj_on_of_nodup_map hnames hf hg h

/-- What a round does with one function. -/
structure Visited (fs : List Func) (externs : Signatures) (cls : Classes) (sigs : Signatures)
    (f : Func) (modes : List Mode) (changed : Bool) (owned : Nat) : Prop where
  approaches : Approaches fs externs cls (sigs.put f.name modes)
  unchanged : changed = false → sigs.find? f.name = some modes ∧ SettledFor cls sigs f
  changed : changed = true → lentBy (sigs.put f.name modes) f < lentBy sigs f
  le : lentBy (sigs.put f.name modes) f ≤ lentBy sigs f
  owned : owned + lentBy (sigs.put f.name modes) f = f.params.countP (cls.needsCount ·.type)

/-- A visit of a function keeps to the solution. -/
theorem Approaches.visit (hvalid : Valid stage f) (hf : f ∈ fs) (hnames : (fs.map (·.name)).Nodup)
    (h : Approaches fs externs cls sigs) :
    ∃ escaped modes changed owned, escaping f sigs cls = .ok escaped ∧
      promote cls escaped f.params ((sigs.find? f.name).getD []) = .ok (modes, changed, owned) ∧
      Visited fs externs cls sigs f modes changed owned := by
  obtain ⟨modes, hmodes, hlen⟩ := h.fits f hf
  obtain ⟨escaped, hescaped, hcontains⟩ := escaping_spec hvalid sigs cls
  obtain ⟨r, hr, hp⟩ := promote_spec cls escaped hlen
  have hlends : ∀ i, sigs.Lends f.name i ↔ modes[i]? = some .borrowed := fun i =>
    lends_of_find hmodes
  -- what is borrowed afterwards was so before, and does not escape
  have hafter : ∀ (i : Nat) p, f.params[i]? = some p → (r.1[i]? = some .borrowed ↔
      sigs.Lends f.name i ∧ ¬Escapes cls sigs f p.var) := by
    intro i p hi
    rw [hp.lends i p hi, hlends, hcontains]
  have hle : sigs.Le (sigs.put f.name r.1) := by
    intro name i hl
    rw [lends_put] at hl
    split at hl
    · next hname =>
      subst hname
      obtain ⟨hi, -⟩ := List.getElem?_eq_some_iff.1 hl
      rw [hp.length] at hi
      exact ((hafter i _ (getElem?_eq_getElem hi)).1 hl).1
    · exact hl
  have hlent : lentBy sigs f = modes.count .borrowed := by
    unfold lentBy
    rw [hmodes]
    rfl
  have hlent' : lentBy (sigs.put f.name r.1) f = r.1.count .borrowed := by
    unfold lentBy
    rw [find?_put, if_pos rfl]
    rfl
  refine ⟨escaped, r.1, r.2.1, r.2.2, hescaped, by rw [hmodes]; exact hr, ?_, ?_, ?_, ?_, ?_⟩
  · refine ⟨fun name hname => ?_, fun g hg => ?_, fun g hg i p hi hl => ?_,
      fun g hg i p hi hc hl => ?_, fun T hT name i hl => ?_⟩
    · have hne : name ≠ f.name := fun he => hname (he ▸ mem_map_of_mem hf)
      rw [find?_put, if_neg hne]
      exact h.keeps name hname
    · rw [find?_put]
      split
      · next hname =>
        obtain rfl := eq_of_name hnames hg hf hname
        exact ⟨r.1, rfl, hp.length⟩
      · exact h.fits g hg
    · exact h.candidate g hg i p hi (hle _ _ hl)
    · refine Escapes.mono ?_ hle
      rw [lends_put] at hl
      split at hl
      · next hname =>
        obtain rfl := eq_of_name hnames hg hf hname
        rw [hafter i p hi, not_and_not_right] at hl
        by_cases hold : sigs.Lends g.name i
        · exact hl hold
        · exact h.escaped g hg i p hi hc hold
      · exact h.escaped g hg i p hi hc hl
    · have hold := h.below T hT name i hl
      rw [lends_put]
      split
      · next hname =>
        subst hname
        obtain ⟨modes', hmodes', hlen'⟩ := hT.fits f hf
        obtain ⟨hi, -⟩ := List.getElem?_eq_some_iff.1 ((lends_of_find hmodes').1 hl)
        have hi' := getElem?_eq_getElem (hlen' ▸ hi)
        refine (hafter i _ hi').2 ⟨hold, fun hesc => ?_⟩
        exact hT.stays f hf i _ hi' hl (hesc.mono (h.below T hT))
      · exact hold
  · intro hc
    have hsame := hp.unchanged hc
    refine ⟨hmodes.trans (congrArg some hsame.symm), fun i p hi hl => ?_⟩
    rw [hlends, ← hsame] at hl
    exact ((hafter i p hi).1 hl).2
  · intro hc
    rw [hlent, hlent']
    exact hp.changed hc
  · rw [hlent, hlent']
    exact hp.le
  · rw [hlent']
    exact hp.owned fun i p hi hb => (h.candidate f hf i p hi ((hlends i).2 hb)).1

/-- What a round does with functions, from one state to another. -/
structure Rounded (fs : List Func) (externs : Signatures) (cls : Classes) (gs : List Func)
    (sigs sigs' : Signatures) (changed changed' : Bool) (owned owned' : Nat) : Prop where
  approaches : Approaches fs externs cls sigs'
  others : ∀ name, name ∉ gs.map (·.name) → sigs'.find? name = sigs.find? name
  unchanged : changed' = false → changed = false ∧
    (∀ name, sigs'.find? name = sigs.find? name) ∧ ∀ g ∈ gs, SettledFor cls sigs g
  changed : changed' = true → changed = true ∨ lent gs sigs' < lent gs sigs
  le : lent gs sigs' ≤ lent gs sigs
  owned : owned' + lent gs sigs' = owned + countedParams cls gs

theorem lent_cons : lent (g :: gs) sigs = lentBy sigs g + lent gs sigs := sum_cons

/-- A round over functions of a program, each looked at once. -/
theorem foldlM_visit_spec (hvalid : ∀ g ∈ gs, Valid .counted g) (hgs : ∀ g ∈ gs, g ∈ fs)
    (hnames : (fs.map (·.name)).Nodup) (hnd : (gs.map (·.name)).Nodup) (changed : Bool)
    (owned : Nat) (h : Approaches fs externs cls sigs) : ∃ sigs' changed' owned', gs.foldlM
        (fun (sigs, changed, owned) f => do
          let escaped ← escaping f sigs cls
          let (modes, c, n) ← promote cls escaped f.params ((sigs.find? f.name).getD [])
          return (sigs.put f.name modes, changed || c, owned + n)) (sigs, changed, owned) =
        (.ok (sigs', changed', owned') : Except Fault (Signatures × Bool × Nat)) ∧
      Rounded fs externs cls gs sigs sigs' changed changed' owned owned' := by
  induction gs generalizing sigs changed owned with
  | nil =>
    refine ⟨sigs, changed, owned, rfl, h, fun _ _ => rfl,
      fun hc => ⟨hc, fun _ => rfl, fun g hg => ?_⟩,
      .inl, le_rfl, rfl⟩
    cases hg
  | cons g gs ih =>
    have hmem : ∀ g' ∈ gs, g' ∈ g :: gs := fun g' => mem_cons_of_mem g
    obtain ⟨hg, hnd⟩ := nodup_cons.1 hnd
    obtain ⟨escaped, modes, c, n, hescaped, hpromote, hv⟩ :=
      Approaches.visit (hvalid g (.head _)) (hgs g (.head _)) hnames h
    obtain ⟨sigs', changed', owned', hrun, hr⟩ := ih (fun g' hg' => hvalid g' (hmem g' hg'))
      (fun g' hg' => hgs g' (hmem g' hg')) hnd (changed || c) (owned + n)
      hv.approaches
    -- the rest of the round leaves this function alone, and it the others
    have hsame : lentBy sigs' g = lentBy (sigs.put g.name modes) g := lentBy_congr (hr.others _ hg)
    have hrest : lent gs (sigs.put g.name modes) = lent gs sigs := by
      refine lent_congr fun g' hg' => ?_
      have hne : g'.name ≠ g.name := by
        intro he
        have hin : g'.name ∈ gs.map (·.name) := mem_map_of_mem hg'
        rw [he] at hin
        exact hg hin
      rw [find?_put, if_neg hne]
    have hle := hr.le
    have hvle := hv.le
    rw [hrest] at hle
    refine ⟨sigs', changed', owned', ?_, hr.approaches, fun name hname => ?_, fun hc => ?_,
      fun hc => ?_, ?_, ?_⟩
    · rw [foldlM_cons]
      dsimp only
      rw [hescaped]
      show ((promote cls escaped g.params _ >>= _) >>= _) = _
      rw [hpromote]
      exact hrun
    · rw [map_cons, mem_cons, not_or] at hname
      rw [hr.others name hname.2, find?_put, if_neg hname.1]
    · obtain ⟨hflags, hfind, hsettled⟩ := hr.unchanged hc
      obtain ⟨rfl, rfl⟩ := Bool.or_eq_false_iff.1 hflags
      obtain ⟨hmodes, hg'⟩ := hv.unchanged rfl
      have hput : ∀ name, (sigs.put g.name modes).find? name = sigs.find? name := by
        intro name
        rw [find?_put]
        split
        · next hname => rw [hname, hmodes]
        · rfl
      refine ⟨rfl, fun name => (hfind name).trans (hput name), fun g' hmem' => ?_⟩
      rcases mem_cons.1 hmem' with rfl | hmem'
      · exact hg'
      · exact (hsettled g' hmem').congr hput
    · rw [lent_cons, lent_cons, hsame]
      rcases hr.changed hc with hflags | hlt
      · rcases (Bool.or_eq_true _ _).mp hflags with hflag | hflag
        · exact .inl hflag
        · have := hv.changed hflag
          omega
      · rw [hrest] at hlt
        omega
    · rw [lent_cons, lent_cons, hsame]
      omega
    · have howned := hr.owned
      have hgowned := hv.owned
      rw [lent_cons, hsame, countedParams, map_cons, sum_cons]
      unfold countedParams at howned
      omega

-- ======== rounds

/-- Rounds come to an end: each but the last lends less. -/
theorem inferRounds_spec (hvalid : ∀ f ∈ fs, Valid .counted f)
    (hnames : (fs.map (·.name)).Nodup) (candidates : Nat) (rounds : Nat) (history : List Nat)
    (h : Approaches fs externs cls sigs) (hrounds : lent fs sigs < rounds) :
    ∃ r new, inferRounds fs cls candidates rounds sigs history = .ok r ∧
      Approaches fs externs cls r.sigs ∧ (∀ f ∈ fs, SettledFor cls r.sigs f) ∧
      r.history = history ++ new ∧ new.length ≤ lent fs sigs + 1 ∧ new.Pairwise (· ≤ ·) ∧
      ∀ n ∈ new, countedParams cls fs ≤ n + lent fs sigs := by
  induction rounds generalizing sigs history with
  | zero => omega
  | succ rounds ih =>
    obtain ⟨sigs', changed, owned, hrun, hr⟩ := foldlM_visit_spec hvalid
      (fun _ hf => hf) hnames hnames false 0 h
    have hround : inferRound fs cls sigs = .ok (sigs', changed, owned) := hrun
    have howned := hr.owned
    have hle := hr.le
    rw [inferRounds, hround]
    cases changed with
    | false =>
      obtain ⟨-, hfind, hsettled⟩ := hr.unchanged rfl
      refine ⟨_, [owned], rfl, hr.approaches, fun f hf => ?_, rfl, ?_, pairwise_singleton _ _, ?_⟩
      · exact (hsettled f hf).congr fun name => (hfind name).symm
      · simp
      · intro n hn
        obtain rfl := mem_singleton.1 hn
        omega
    | true =>
      have hlt : lent fs sigs' < lent fs sigs := (hr.changed rfl).resolve_left (by simp)
      obtain ⟨r, new, hrest, happ, hsettled, hhistory, hlength, hpair, hbound⟩ :=
        ih (history ++ [owned]) hr.approaches (by omega)
      refine ⟨r, owned :: new, hrest, happ, hsettled, ?_, ?_, ?_, ?_⟩
      · rw [hhistory, append_assoc]
        rfl
      · rw [length_cons]
        omega
      · refine pairwise_cons.2 ⟨fun n hn => ?_, hpair⟩
        have := hbound n hn
        omega
      · intro n hn
        rcases mem_cons.1 hn with rfl | hn
        · omega
        · have := hbound n hn
          omega

-- ======== start

/-- Modes that are put for functions of different names are found again, and
those of other names are kept. -/
theorem foldl_put_spec (modesOf : Func → List Mode) (hnd : (gs.map (·.name)).Nodup)
    (s : Signatures) : (∀ g ∈ gs, (((gs.map fun g => (g.name, modesOf g)).foldl
      (fun s (name, modes) => s.put name modes) s).find? g.name = some (modesOf g))) ∧
    ∀ name, name ∉ gs.map (·.name) → ((gs.map fun g => (g.name, modesOf g)).foldl
        (fun s (name, modes) => s.put name modes) s).find? name = s.find? name := by
  induction gs generalizing s with
  | nil => exact ⟨fun g hg => absurd hg not_mem_nil, fun _ _ => rfl⟩
  | cons g gs ih =>
    obtain ⟨hg, hnd⟩ := nodup_cons.1 hnd
    obtain ⟨hin, hout⟩ := ih hnd (s.put g.name (modesOf g))
    rw [map_cons, foldl_cons]
    refine ⟨fun g' hg' => ?_, fun name hname => ?_⟩
    · rcases mem_cons.1 hg' with rfl | hg'
      · rw [hout _ hg, find?_put, if_pos rfl]
      · exact hin g' hg'
    · rw [map_cons, mem_cons, not_or] at hname
      rw [hout name hname.2, find?_put, if_neg hname.1]

/-- Functions start with their candidates borrowed. -/
theorem startModes_eq : startModes (closureTargets fs) cls f =
    f.params.map fun p => if Candidate fs cls f p then .borrowed else .owned :=
  map_congr_left fun _ _ => if_congr candidate_iff.symm rfl rfl

theorem startModes_lends {p : Param} (hp : f.params[i]? = some p) :
    (startModes (closureTargets fs) cls f)[i]? = some .borrowed ↔ Candidate fs cls f p := by
  rw [startModes_eq, getElem?_map, hp]
  simp

theorem count_startModes : (startModes (closureTargets fs) cls f).count .borrowed =
    f.params.countP fun p => Candidate fs cls f p := by
  rw [startModes_eq, List.count, countP_map]
  refine countP_congr fun p _ => ?_
  simp

/-- At the start all candidates are borrowed. -/
theorem exists_start (hnames : (fs.map (·.name)).Nodup) (externs : Signatures) (cls : Classes) :
    ∃ sigs, Approaches fs externs cls sigs ∧ lent fs sigs = candidateCount fs cls ∧
      infer fs externs cls =
        inferRounds fs cls (candidateCount fs cls) (candidateCount fs cls + 1) sigs [] := by
  obtain ⟨hin, hout⟩ := foldl_put_spec (startModes (closureTargets fs) cls) hnames externs
  generalize hsigs : List.foldl _ externs _ = sigs at hin hout
  have hlends : ∀ f ∈ fs, ∀ (i : Nat) p, f.params[i]? = some p →
      (sigs.Lends f.name i ↔ Candidate fs cls f p) := fun f hf i p hi =>
    (lends_of_find (hin f hf)).trans (startModes_lends hi)
  have hcount : ((fs.map fun f => (f.name, startModes (closureTargets fs) cls f)).flatMap
      (·.2)).count .borrowed = candidateCount fs cls := by
    rw [List.count_flatMap, List.map_map]
    exact congrArg List.sum (map_congr_left fun f _ => count_startModes)
  refine ⟨sigs, ⟨hout, fun f hf => ⟨_, hin f hf, length_map _⟩, fun f hf i p hi => ?_,
    fun f hf i p hi hc hl => ?_, fun T hT name i hl => ?_⟩, ?_, ?_⟩
  · exact (hlends f hf i p hi).1
  · exact absurd ((hlends f hf i p hi).2 hc) hl
  · by_cases hname : name ∈ fs.map (·.name)
    · obtain ⟨f, hf, rfl⟩ := mem_map.1 hname
      obtain ⟨modes, hmodes, hlen⟩ := hT.fits f hf
      obtain ⟨hi, -⟩ := List.getElem?_eq_some_iff.1 ((lends_of_find hmodes).1 hl)
      have hi' := getElem?_eq_getElem (hlen ▸ hi)
      exact (hlends f hf i _ hi').2 (hT.candidate f hf i _ hi' hl)
    · unfold Lends at hl ⊢
      rwa [hout name hname, ← hT.keeps name hname]
  · refine congrArg List.sum (map_congr_left fun f hf => ?_)
    unfold lentBy
    rw [hin f hf]
    exact count_startModes
  · unfold infer
    dsimp only
    rw [hcount, hsigs]

-- ======== results

/-- What the rounds end with. -/
structure Settled (fs : List Func) (externs : Signatures) (cls : Classes) (r : Inferred) :
    Prop where
  run : infer fs externs cls = .ok r
  approaches : Approaches fs externs cls r.sigs
  stays : ∀ f ∈ fs, SettledFor cls r.sigs f
  length : r.history.length ≤ candidateCount fs cls + 1
  sorted : r.history.Pairwise (· ≤ ·)

/-- Rounds go on until nothing changes. -/
theorem exists_settled (hvalid : ∀ f ∈ fs, Valid .counted f) (hnames : (fs.map (·.name)).Nodup)
    (externs : Signatures) (cls : Classes) : ∃ r, Settled fs externs cls r := by
  obtain ⟨sigs, happ, hlent, hinfer⟩ := exists_start hnames externs cls
  obtain ⟨r, new, hrun, happ', hstays, hhistory, hlength, hsorted, -⟩ :=
    inferRounds_spec hvalid hnames (candidateCount fs cls) (candidateCount fs cls + 1) [] happ
      (by omega)
  rw [nil_append] at hhistory
  rw [← hhistory] at hlength hsorted
  exact ⟨r, hinfer.trans hrun, happ', hstays, hlent ▸ hlength, hsorted⟩

/-- What is settled is a solution. -/
theorem Settled.solves {r : Inferred} (h : Settled fs externs cls r) :
    Solves fs externs cls r.sigs :=
  ⟨h.approaches.keeps, h.approaches.fits, h.approaches.candidate, h.stays⟩

/-- Solutions below each other are the same. -/
theorem Solves.find_eq (hs : Solves fs externs cls sigs) (hs' : Solves fs externs cls sigs')
    (hle : sigs.Le sigs') (hle' : sigs'.Le sigs) (name : String) :
    sigs.find? name = sigs'.find? name := by
  by_cases hname : name ∈ fs.map (·.name)
  · obtain ⟨f, hf, rfl⟩ := mem_map.1 hname
    obtain ⟨modes, hmodes, hlen⟩ := hs.fits f hf
    obtain ⟨modes', hmodes', hlen'⟩ := hs'.fits f hf
    rw [hmodes, hmodes']
    refine congrArg some (ext_getElem (hlen.trans hlen'.symm) fun i hi hi' => ?_)
    have hiff : modes[i]? = some .borrowed ↔ modes'[i]? = some .borrowed := by
      rw [← lends_of_find hmodes, ← lends_of_find hmodes']
      exact ⟨hle' _ _, hle _ _⟩
    rw [getElem?_eq_getElem hi, getElem?_eq_getElem hi', some_inj, some_inj] at hiff
    cases hm : modes[i] with
    | borrowed => exact (hiff.1 hm).symm
    | owned =>
      cases hm' : modes'[i] with
      | borrowed => rw [hiff.2 hm'] at hm; cases hm
      | owned => rfl
  · rw [hs.keeps name hname, hs'.keeps name hname]

/-- The order of the functions does not matter for what is a solution. -/
theorem Solves.perm (hperm : gs.Perm fs) (h : Solves gs externs cls sigs) :
    Solves fs externs cls sigs where
  keeps name hname := h.keeps name fun hmem => hname ((hperm.map _).mem_iff.1 hmem)
  fits f hf := h.fits f (hperm.mem_iff.2 hf)
  candidate f hf i p hi hl := by
    obtain ⟨hcounted, hclosure⟩ := h.candidate f (hperm.mem_iff.2 hf) i p hi hl
    exact ⟨hcounted, fun g hg => hclosure g (hperm.mem_iff.2 hg)⟩
  stays f hf := h.stays f (hperm.mem_iff.2 hf)

/-- Modes are inferred for checked functions of different names, within a round
more than there are candidates, and each round takes over no less than the one
before. A parameter is borrowed exactly if it may be and no alias of it
escapes; all other solutions take over at least what is taken over; and the
order of the functions does not matter. -/
theorem infer_least (hchecked : ∀ f ∈ fs, ∃ stage, f.check stage = .ok ())
    (hnames : (fs.map (·.name)).Nodup) (externs : Signatures) (cls : Classes) :
    ∃ r, infer fs externs cls = .ok r ∧
      r.history.length ≤ candidateCount fs cls + 1 ∧ r.history.Pairwise (· ≤ ·) ∧
      (∀ name, name ∉ fs.map (·.name) → r.sigs.find? name = externs.find? name) ∧
      (∀ f ∈ fs, ∃ modes, r.sigs.find? f.name = some modes ∧ modes.length = f.params.length ∧
        ∀ (i : Nat) p, f.params[i]? = some p →
          (modes[i]? = some .borrowed ↔ Candidate fs cls f p ∧ ¬Escapes cls r.sigs f p.var)) ∧
      (∀ T, Solves fs externs cls T → r.sigs.Le T) ∧
      ∀ gs, gs.Perm fs → ∃ r', infer gs externs cls = .ok r' ∧
        ∀ name, r'.sigs.find? name = r.sigs.find? name := by
  have hvalid : ∀ f ∈ fs, Valid .counted f := by
    intro f hf
    obtain ⟨stage, hcheck⟩ := hchecked f hf
    exact (check_ok_iff.1 hcheck).counted
  obtain ⟨r, hr⟩ := exists_settled hvalid hnames externs cls
  refine ⟨r, hr.run, hr.length, hr.sorted, hr.approaches.keeps, fun f hf => ?_,
    hr.approaches.below, fun gs hperm => ?_⟩
  · obtain ⟨modes, hmodes, hlen⟩ := hr.approaches.fits f hf
    refine ⟨modes, hmodes, hlen, fun i p hi => ?_⟩
    rw [← lends_of_find hmodes]
    refine ⟨fun hl => ⟨hr.approaches.candidate f hf i p hi hl, hr.stays f hf i p hi hl⟩, ?_⟩
    rintro ⟨hc, hesc⟩
    by_contra hl
    exact hesc (hr.approaches.escaped f hf i p hi hc hl)
  · obtain ⟨r', hr'⟩ := exists_settled (fun g hg => hvalid g (hperm.mem_iff.1 hg))
      ((hperm.map _).nodup_iff.2 hnames) externs cls
    have hle : r'.sigs.Le r.sigs := hr'.approaches.below _ (hr.solves.perm hperm.symm)
    have hle' : r.sigs.Le r'.sigs := hr.approaches.below _ (hr'.solves.perm hperm)
    exact ⟨r', hr'.run, (hr'.solves.perm hperm).find_eq hr.solves hle hle'⟩

/-- A program of two functions that call each other with a text, which one of
them hands to the host in the end. -/
def bouncing : List Func :=
  [{ name := "even"
     params := [⟨0, .str, .owned⟩, ⟨1, .int, .owned⟩]
     result := .int
     blocks := #[⟨0, [], [.call 2 "odd" [0, 1] false], some (.ret 2)⟩]
     entry := 0
     types := #[.str, .int, .int] },
   { name := "odd"
     params := [⟨0, .str, .owned⟩, ⟨1, .int, .owned⟩]
     result := .int
     blocks := #[⟨0, [], [], some (.branch 1 (some 1) (some 2))⟩,
       ⟨1, [], [.move 2 0, .call 3 "even" [2, 1] false], some (.ret 3)⟩,
       ⟨2, [], [.call 4 "send" [0] false], some (.ret 4)⟩]
     entry := 0
     types := #[.str, .int, .str, .int, .int] }]

/-- Only texts are counted. -/
def strClasses : Classes := .replicate 6 .scalar ++ #[.definiteRef]

/-- Both functions have to take over their texts: it takes as many rounds as
there can be. -/
theorem infer_bouncing_least : (∀ f ∈ bouncing, ∃ stage, f.check stage = .ok ()) ∧
    (bouncing.map (·.name)).Nodup ∧ candidateCount bouncing strClasses = 2 ∧
    ∃ r, infer bouncing [("send", [.owned])] strClasses = .ok r ∧ r.history = [1, 2, 2] ∧
      (∀ T, Solves bouncing [("send", [.owned])] strClasses T → r.sigs.Le T) ∧
      ∀ gs, gs.Perm bouncing → ∃ r', infer gs [("send", [.owned])] strClasses = .ok r' ∧
        ∀ name, r'.sigs.find? name = r.sigs.find? name := by
  have hchecked : ∀ f ∈ bouncing, ∃ stage, f.check stage = .ok () := by
    intro f hf
    refine ⟨.lowered, ?_⟩
    fin_cases hf <;> decide +kernel
  have hnames : (bouncing.map (·.name)).Nodup := by decide +kernel
  obtain ⟨r, hrun, -, -, -, -, hleast, hperm⟩ :=
    infer_least hchecked hnames [("send", [.owned])] strClasses
  refine ⟨hchecked, hnames, by decide +kernel, r, hrun, ?_, hleast, hperm⟩
  have hhistory : (infer bouncing [("send", [.owned])] strClasses).map (·.history) =
      .ok [1, 2, 2] := rfl
  rw [hrun] at hhistory
  exact Except.ok.inj hhistory

end Borrow

end RefCount
