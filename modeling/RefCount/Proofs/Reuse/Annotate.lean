/-
Pairing releases with constructions succeeds on every valid function without
tokens, and the function with pairs is valid. A release and a construction
become a reset and a reuse of a new token; since releases are paired from the
first on and no pair reaches over the reuse of another, there is no token
between the two, so that pairs nest.
-/
import Mathlib
import RefCount.Proofs.Count.Anchor
import RefCount.Proofs.Ir.Replace
import RefCount.Proofs.Reuse.Nest

namespace RefCount.Reuse

open Ir RefCount.Count List Option Array Func

variable {pool : Pool} {f g : Func} {b : BlockId} {block : Block} {v : Var} {t : TypeId}

-- ======== variants

theorem exists_type? (hf : WellFormed f) (hv : v ∈ f.defs) : ∃ t, f.type? v = some t :=
  ⟨_, getElem?_eq_getElem (hf.bound v hv)⟩

/-- In a well-formed function the search for evidence does not fail. -/
theorem variantWithin_ok (hf : WellFormed f) (v : Var) (steps : Nat) {b : BlockId}
    (hb : b < f.blocks.size) (before : List Instr) :
    ∃ variant, variantWithin f v steps b before = .ok variant := by
  induction steps generalizing b before with
  | zero => exact ⟨none, rfl⟩
  | succ steps ih =>
    unfold variantWithin
    split
    · exact ⟨_, rfl⟩
    · rw [if_neg (not_le.2 hb)]
      split
      · rename_i p hp
        have hlead : b ∈ f.successors p := (mem_preds_iff hf.id).1 (hp ▸ mem_singleton_self p)
        obtain ⟨pblock, hblock, -⟩ := exists_of_successor hlead
        rw [hblock]
        dsimp only
        split
        · exact ⟨_, rfl⟩
        · rw [hf.id p pblock hblock]
          exact ih (Func.block_lt hblock) _
      · exact ⟨_, rfl⟩

/-- Whether a variable has a known variant can be found if it is boxed. -/
theorem knownVariant?_ok (hf : WellFormed f) (hb : b < f.blocks.size) (ht : f.type? v = some t)
    (hboxed : pool.isBoxed t = true) (before : List Instr) :
    ∃ variant, knownVariant? pool f b before v = .ok variant := by
  unfold knownVariant?
  rw [ht]
  dsimp only
  cases hshape : pool.shape? t with
  | none =>
    rw [Pool.isBoxed, hshape] at hboxed
    cases hboxed
  | some shape =>
    dsimp only
    split
    · exact ⟨_, rfl⟩
    · exact variantWithin_ok hf v _ hb before

/-- What an instruction shows of variants: projections and tags do. -/
def evidence : Instr → Option Instr
  | .project dst src variant field => some (.project dst src variant field)
  | .tag dst src => some (.tag dst src)
  | _ => none

/-- What the search for a variant looks at in a block. -/
def evidenceOf (b : Block) : BlockId × Option Term × List (Option Instr) :=
  (b.id, b.term, b.code.map evidence)

/-- The last projection depends on the evidence only. -/
theorem lastProjected?_congr {code code' : List Instr}
    (h : code.map evidence = code'.map evidence) :
    lastProjected? v code = lastProjected? v code' := by
  have hview : ∀ code, lastProjected? v code = (code.map evidence).reverse.findSome? fun o =>
      o.bind fun x => lastProjected? v [x] := by
    intro code
    rw [lastProjected?, ← List.map_reverse, List.findSome?_map]
    congr 1
    funext x
    cases x with
    | project dst src variant field =>
      by_cases hsrc : src = v <;> simp [evidence, lastProjected?, hsrc]
    | _ => rfl
  rw [hview, hview, h]

/-- So does a switch on a tag. -/
theorem tagSwitch?_congr {b b' : Block} (h : evidenceOf b = evidenceOf b') :
    tagSwitch? v b = tagSwitch? v b' := by
  obtain ⟨-, hterm, hcode⟩ : b.id = b'.id ∧ b.term = b'.term ∧ b.code.map evidence =
      b'.code.map evidence := by simpa [evidenceOf] using h
  have hview : ∀ tag code, takesTag tag v code =
      (code.map evidence).any fun o => o.any fun x => takesTag tag v [x] := by
    intro tag code
    rw [takesTag, List.any_map]
    congr 1
    funext x
    cases x with
    | _ => simp [evidence, takesTag]
  unfold tagSwitch?
  rw [hterm]
  split
  · rw [hview, hview, hcode]
  · rfl

/-- So do the ways between blocks. -/
theorem preds_congr (h : f.blocks.map evidenceOf = g.blocks.map evidenceOf) (b : BlockId) :
    f.preds b = g.preds b := by
  have hview : ∀ f : Func, f.preds b = ((f.blocks.map evidenceOf).toList.filter fun p =>
      (p.2.1.map Term.targets).any (·.contains (some b))).map (·.1) := by
    intro f
    rw [Array.toList_map, List.filter_map, List.map_map]
    rfl
  rw [hview, hview, h]

/-- The variant that is found depends on projections, tags and terminators
only. -/
theorem variantWithin_congr (h : f.blocks.map evidenceOf = g.blocks.map evidenceOf) (v : Var)
    (steps : Nat) (b : BlockId) {before before' : List Instr}
    (hbefore : before.map evidence = before'.map evidence) :
    variantWithin f v steps b before = variantWithin g v steps b before' := by
  have hsize : f.blocks.size = g.blocks.size := by simpa using congrArg Array.size h
  induction steps generalizing b before before' with
  | zero => rfl
  | succ steps ih =>
    unfold variantWithin
    rw [lastProjected?_congr hbefore, preds_congr h, hsize]
    split
    · rfl
    · split
      · rfl
      · split
        · rename_i p _
          have hp : (f.block? p).map evidenceOf = (g.block? p).map evidenceOf := by
            simpa [block?] using congrArg (·[p]?) h
          cases hblock : f.block? p with
          | none =>
            rw [hblock, map_none, eq_comm, map_eq_none_iff] at hp
            rw [hp]
          | some pb =>
            rw [hblock, map_some, eq_comm] at hp
            obtain ⟨pb', hblock', hsame⟩ := map_eq_some_iff.1 hp
            rw [hblock']
            dsimp only
            rw [tagSwitch?_congr hsame]
            split
            · rfl
            · obtain ⟨hid, -, hcode⟩ : pb'.id = pb.id ∧ pb'.term = pb.term ∧
                pb'.code.map evidence = pb.code.map evidence := by
                  simpa [evidenceOf] using hsame
              rw [hid]
              exact ih _ hcode.symm
        · rfl

/-- What is known of a variable depends on the evidence in the blocks and on
the type of the variable only. -/
theorem knownVariant?_congr (h : f.blocks.map evidenceOf = g.blocks.map evidenceOf)
    (htype : f.type? v = g.type? v) (b : BlockId) {before before' : List Instr}
    (hbefore : before.map evidence = before'.map evidence) :
    knownVariant? pool f b before v = knownVariant? pool g b before' v := by
  have hsize : f.blocks.size = g.blocks.size := by simpa using congrArg Array.size h
  unfold knownVariant?
  rw [htype, hsize, variantWithin_congr h v _ b hbefore]

-- ======== pairs

/-- A construction in some code, before which there is no reuse and no use of a
variable. -/
def ConstructsAt (v : Var) (t : TypeId) (code : List Instr) (j : Nat) (r : Rebuild) : Prop :=
  ∃ mid post, code = mid ++ r.construct r.dst :: post ∧ mid.length = j ∧
    (∀ dst token type variant args, .reuse dst token type variant args ∉ mid) ∧
    (∀ x ∈ mid, v ∉ x.uses) ∧ v ∉ r.args ∧ r.type = t

/-- What is found is a construction that nothing stands in the way of. -/
theorem constructsAt_of_find {code : List Instr} {j : Nat} {r : Rebuild}
    (h : findConstruct? v t code = some (j, r)) : ConstructsAt v t code j r := by
  induction code generalizing j with
  | nil => cases h
  | cons x code ih =>
    have hlater : (findConstruct? v t code).map (fun p => (p.1 + 1, p.2)) = some (j, r) →
        (∀ dst token type variant args, x ≠ .reuse dst token type variant args) → v ∉ x.uses →
        ConstructsAt v t (x :: code) j r := by
      intro h hx huse
      obtain ⟨⟨i, r'⟩, hfound, he⟩ := map_eq_some_iff.1 h
      cases he
      obtain ⟨mid, post, hcode, hlength, hno, hunused, hargs⟩ := ih hfound
      refine ⟨x :: mid, post, congrArg _ hcode, congrArg _ hlength, ?_,
        forall_mem_cons.2 ⟨huse, hunused⟩, hargs⟩
      intro dst token type variant args hmem
      rcases mem_cons.1 hmem with he | hmem
      · exact hx dst token type variant args he.symm
      · exact hno dst token type variant args hmem
    unfold findConstruct? at h
    cases x with
    | reuse => cases h
    | construct dst type variant args =>
      dsimp only at h
      split at h
      · cases h
      · rename_i hargs
        have hunread : v ∉ args := fun hv => hargs (contains_iff_mem.2 hv)
        split at h
        · rename_i htype
          cases h
          exact ⟨[], code, rfl, rfl, fun _ _ _ _ _ => not_mem_nil,
            fun _ hx => absurd hx not_mem_nil, hunread, htype⟩
        · exact hlater h (fun _ _ _ _ _ he => by cases he) hunread
    | _ =>
      dsimp only at h
      split at h
      · cases h
      · rename_i huse
        exact hlater h (fun _ _ _ _ _ he => by cases he)
          fun hv => huse (contains_iff_mem.2 hv)

/-- What an instruction is after a pair has been made. -/
inductive Becomes : Instr → Instr → Prop
  | same (x : Instr) : Becomes x x
  | reset (token v : Var) : Becomes (.dec v) (.reset token v)
  | reuse (r : Rebuild) (token : Var) : Becomes (r.construct r.dst) (r.reuse token)

/-- Pairing changes no evidence. -/
theorem map_evidence_of_becomes {code code' : List Instr} (h : Forall₂ Becomes code code') :
    code.map evidence = code'.map evidence := by
  induction h with
  | nil => rfl
  | cons hxy _ ih =>
    rw [map_cons, map_cons, ih]
    cases hxy <;> rfl

/-- A release and a construction behind it that can be paired. -/
structure Pairing (pool : Pool) (f : Func) (block : Block) (i : Nat) where
  var : Var
  type : TypeId
  before : List Instr
  between : List Instr
  rebuild : Rebuild
  behind : List Instr
  code : block.code = before ++ .dec var :: (between ++ rebuild.construct rebuild.dst :: behind)
  length : before.length = i
  noReuse : ∀ dst token type variant args, .reuse dst token type variant args ∉ between
  unused : ∀ x ∈ between, var ∉ x.uses
  unread : var ∉ rebuild.args
  typed : f.type? var = some type
  boxed : pool.isBoxed type = true
  same : rebuild.type = type
  known : ∃ variant, knownVariant? pool f block.id before var = .ok (some variant)

/-- The code with the pair. -/
def Pairing.paired {i : Nat} (p : Pairing pool f block i) : List Instr :=
  p.before ++ .reset f.types.size p.var ::
    (p.between ++ p.rebuild.reuse f.types.size :: p.behind)

/-- The two parts of the pair stand where the release and the construction
stood. -/
theorem Pairing.paired_eq_set {i : Nat} (p : Pairing pool f block i) :
    p.paired = (block.code.set i (.reset f.types.size p.var)).set (i + 1 + p.between.length)
      (p.rebuild.reuse f.types.size) := by
  have hlength := p.length
  rw [paired, p.code, set_append_right _ _ hlength.le, hlength, Nat.sub_self,
    set_cons_zero, set_append_right _ _ (by omega), hlength,
    show i + 1 + p.between.length - i = p.between.length + 1 by omega, set_cons_succ,
    set_append_right _ _ le_rfl, Nat.sub_self, set_cons_zero]

/-- A release is paired only as it can be. -/
theorem pairAt_eq_some {i : Nat} {s : List Instr × Func}
    (h : pairAt pool f block i = .ok (some s)) :
    ∃ p : Pairing pool f block i, s = (p.paired, (f.newVar .unit).2) := by
  unfold pairAt at h
  split at h
  · rename_i v hv
    split at h
    · cases h
    · rename_i t ht
      split at h
      · rename_i hboxed
        split at h
        · cases h
        · rename_i j r hfound
          obtain ⟨mid, post, hdrop, rfl, hno, hunused, hunread, hsame⟩ :=
            constructsAt_of_find hfound
          cases hvariant : knownVariant? pool f block.id (block.code.take i) v with
          | error e =>
            rw [hvariant] at h
            cases h
          | ok variant =>
            rw [hvariant] at h
            cases variant with
            | none => cases h
            | some variant =>
              obtain ⟨hi, hget⟩ := List.getElem?_eq_some_iff.1 hv
              have hlen : (block.code.take i).length = i := by
                rw [length_take, min_eq_left hi.le]
              have hcode : block.code = block.code.take i ++ .dec v ::
                  (mid ++ r.construct r.dst :: post) := by
                rw [← hdrop, ← hget, getElem_cons_drop, take_append_drop]
              let p : Pairing pool f block i := ⟨v, t, block.code.take i, mid, r, post, hcode,
                hlen, hno, hunused, hunread, ht, hboxed, hsame, variant, hvariant⟩
              refine ⟨p, ?_⟩
              rw [p.paired_eq_set]
              exact (some.inj (Except.ok.inj h)).symm
      · cases h
  · cases h

/-- Pairing a release has no fault. -/
theorem pairAt_ok (pool : Pool) (hf : Valid .counted f) (hblock : f.block? b = some block)
    (i : Nat) : pairAt pool f block i = .ok none ∨ ∃ p : Pairing pool f block i,
        pairAt pool f block i = .ok (some (p.paired, (f.newVar .unit).2)) := by
  obtain ⟨s, hs⟩ : ∃ s, pairAt pool f block i = .ok s := by
    unfold pairAt
    split
    · rename_i v hv
      have hread : v ∈ block.reads := mem_append_left _
        (mem_flatMap.2 ⟨_, mem_of_getElem? hv, mem_singleton_self v⟩)
      obtain ⟨t, ht⟩ := exists_type? hf.toWellFormed
        (hf.defined block (mem_of_getElem? hblock) v hread)
      rw [ht]
      dsimp only
      split
      · rename_i hboxed
        split
        · exact ⟨_, rfl⟩
        · have hb : block.id < f.blocks.size := by
            rw [hf.id b block hblock]
            exact Func.block_lt hblock
          obtain ⟨variant, hvariant⟩ := knownVariant?_ok hf.toWellFormed hb ht hboxed
            (block.code.take i)
          rw [hvariant]
          cases variant with
          | none => exact ⟨_, rfl⟩
          | some variant => exact ⟨_, rfl⟩
      · exact ⟨_, rfl⟩
    · exact ⟨_, rfl⟩
  cases s with
  | none => exact .inl hs
  | some s =>
    obtain ⟨p, rfl⟩ := pairAt_eq_some hs
    exact .inr ⟨p, hs⟩

-- ======== one more pair

/-- Whether only boxed values are reset. -/
def ResetsBoxed (pool : Pool) (f : Func) : Prop :=
  ∀ block ∈ f.blocks, ∀ token v, .reset token v ∈ block.code →
    ∃ t, f.type? v = some t ∧ pool.isBoxed t = true

/-- Whether values of known variants only are reset. -/
def ResetsKnown (pool : Pool) (f : Func) : Prop :=
  ∀ block ∈ f.blocks, ∀ i token v, block.code[i]? = some (.reset token v) →
    ∃ variant, knownVariant? pool f block.id (block.code.take i) v = .ok (some variant)

/-- A valid function with pairs. -/
structure Annotated (pool : Pool) (f : Func) : Prop where
  valid : Valid .counted f
  paired : Paired f
  anchored : Anchored f
  boxed : ResetsBoxed pool f
  known : ResetsKnown pool f

namespace Pairing

variable {i : Nat} (p : Pairing pool f block i)

/-- The block with the pair. -/
def pairedBlock : Block := { block with code := p.paired }

/-- The function with the pair. -/
def pairedFunc (b : BlockId) : Func :=
  (f.newVar .unit).2.modifyBlock b fun block => { block with code := p.paired }

/-- One block has other code. -/
theorem block?_pairedFunc (hblock : f.block? b = some block) (c : BlockId) :
    (p.pairedFunc b).block? c = if c = b then some p.pairedBlock else f.block? c := by
  have hnew : ∀ c, (f.newVar .unit).2.block? c = f.block? c := fun _ => rfl
  rw [pairedFunc, block?_modifyBlock, hnew, hnew, hblock]
  rfl

/-- A pair defines one variable more, its token. -/
theorem defs_perm : p.pairedBlock.defs.Perm (f.types.size :: block.defs) := by
  unfold pairedBlock Block.defs
  dsimp only
  rw [paired, p.code]
  simp only [List.filterMap_append, List.filterMap_cons, Instr.def?, Rebuild.reuse,
    Rebuild.construct]
  rw [← List.append_assoc, ← List.append_assoc]
  exact perm_middle

/-- What is read is still there. -/
theorem supports {P : Var → Prop} {last : List Var} (h : Supports P block.code last) :
    Supports P p.paired last := by
  rw [p.code, supports_append] at h
  obtain ⟨hbefore, hdec, h⟩ := h
  rw [supports_append] at h
  obtain ⟨hbetween, hconstruct, hbehind⟩ := h
  rw [paired, supports_append]
  refine ⟨hbefore, hdec, ?_⟩
  rw [supports_append]
  refine ⟨hbetween.mono fun u hu => .inl (hu.resolve_right fun he => by cases he), ?_, ?_⟩
  · intro u hu
    rcases mem_cons.1 hu with rfl | hu
    · exact .inl (.inr rfl)
    · rcases hconstruct u hu with (hu | hu) | hu
      · exact .inl (.inl hu)
      · cases hu
      · exact .inr hu
  · refine hbehind.mono fun u hu => ?_
    rcases hu with ((hu | hu) | hu) | hu
    · exact .inl (.inl (.inl hu))
    · cases hu
    · exact .inl (.inr hu)
    · exact .inr hu

theorem not_mem_defs (hf : WellFormed f) : f.types.size ∉ f.defs := fun h =>
  absurd (hf.bound _ h) (lt_irrefl _)

/-- The block with the pair takes the place of the block. -/
theorem replaces (hf : WellFormed f) (hblock : f.block? b = some block) :
    Replaces f (p.pairedFunc b) b block p.pairedBlock [] where
  params := rfl
  entry := rfl
  types := ⟨[.unit], by simp [pairedFunc, newVar, modifyBlock]⟩
  here := hblock
  blocks := by
    have hnew : (f.newVar .unit).2.block? b = some block := hblock
    rw [append_nil, pairedFunc, Replaces.toList_modifyBlock hnew]
    rfl
  id := rfl
  blockParams := rfl
  ids i nb h := by cases h
  term nb h := by
    rw [mem_singleton.1 h]
    exact hf.term block (mem_of_getElem? hblock)
  edge nb h t ht := by
    rw [mem_singleton.1 h] at ht ⊢
    exact .inl ⟨ht, fun target hfits => hfits⟩
  nodup := by
    rw [flatMap_nil, append_nil, p.defs_perm.nodup_iff, nodup_cons]
    refine ⟨fun h => not_mem_defs hf (mem_defs_of_block hblock h), ?_⟩
    exact nodup_block hf.nodup hblock
  bound v hv := by
    rw [flatMap_nil, append_nil, p.defs_perm.mem_iff, mem_cons] at hv
    rcases hv with rfl | hv
    · exact .inr ⟨le_rfl, by simp [pairedFunc, newVar, modifyBlock]⟩
    · exact .inl hv

theorem mem_paired {x : Instr} (hx : x ∈ p.paired) :
    x ∈ block.code ∨ x = .reset f.types.size p.var ∨ x = p.rebuild.reuse f.types.size := by
  rw [p.code]
  simp only [paired, List.mem_append, List.mem_cons] at hx ⊢
  rcases hx with hx | hx | hx | hx | hx
  · exact .inl (.inl hx)
  · exact .inr (.inl hx)
  · exact .inl (.inr (.inr (.inl hx)))
  · exact .inr (.inr hx)
  · exact .inl (.inr (.inr (.inr (.inr hx))))

theorem dec_mem : .dec p.var ∈ block.code := by
  rw [p.code]
  simp

theorem construct_mem : p.rebuild.construct p.rebuild.dst ∈ block.code := by
  rw [p.code]
  simp

/-- A valid function with one pair more is valid. -/
theorem valid (hf : Valid .counted f) (hblock : f.block? b = some block) :
    Valid .counted (p.pairedFunc b) := by
  have hdefs : ∀ v ∈ block.defs, v ∈ p.pairedBlock.defs := fun v hv =>
    p.defs_perm.mem_iff.2 (.tail _ hv)
  have hreads : ∀ x ∈ block.code, ∀ v ∈ x.uses, v ∈ f.defs := fun x hx v hv =>
    hf.defined block (mem_of_getElem? hblock) v (mem_append_left _ (mem_flatMap.2 ⟨x, hx, hv⟩))
  refine (p.replaces hf.toWellFormed hblock).valid (fun _ => False) (fun _ _ _ _ _ _ h => h)
    (fun x hx _ _ _ v hv _ => .inl (hdefs v hv)) (fun hb => ?_) (fun _ x hx => nomatch hx) hf
    (fun x _ y _ => checkStage_counted x.id y)
    (fun v hv _ => ⟨_, mem_singleton_self _, hdefs v hv⟩) fun x hx v hv => ?_
  · refine p.supports ((hf.supported b block hb hblock).mono fun v => Or.imp_left fun hv => ?_)
    exact ⟨hv, fun h => h⟩
  · rw [mem_singleton.1 hx] at hv
    have htoken : ∃ y ∈ [p.pairedBlock], f.types.size ∈ y.defs :=
      ⟨_, mem_singleton_self _, p.defs_perm.mem_iff.2 (.head _)⟩
    rcases mem_append.1 hv with hv | hv
    · obtain ⟨y, hy, hv⟩ := mem_flatMap.1 hv
      rcases p.mem_paired hy with hy | rfl | rfl
      · exact .inl ⟨hreads y hy v hv, fun h => h⟩
      · exact .inl ⟨hreads _ p.dec_mem v hv, fun h => h⟩
      · rcases mem_cons.1 hv with rfl | hv
        · exact .inr htoken
        · exact .inl ⟨hreads _ p.construct_mem v hv, fun h => h⟩
    · exact .inl ⟨hf.defined block (mem_of_getElem? hblock) v (mem_append_right _ hv),
        fun h => h⟩

theorem mem_blocks (hblock : f.block? b = some block) {x : Block}
    (hx : x ∈ (p.pairedFunc b).blocks) : x = p.pairedBlock ∨ x ∈ f.blocks := by
  obtain ⟨c, hc⟩ := mem_iff_getElem?.1 hx
  have hget := (p.block?_pairedFunc hblock c).symm.trans hc
  split at hget
  · exact .inl (Option.some.inj hget).symm
  · exact .inr (mem_of_getElem? hget)

/-- There is one token more. -/
theorem isToken_of_pairedFunc {token : Var} (hblock : f.block? b = some block)
    (h : IsToken (p.pairedFunc b) token) : IsToken f token ∨ token = f.types.size := by
  obtain ⟨x, hx, v, hv⟩ := h
  rcases p.mem_blocks hblock hx with rfl | hx
  · rcases p.mem_paired hv with hv | he | he
    · exact .inl ⟨block, mem_of_getElem? hblock, v, hv⟩
    · exact .inr (Instr.reset.inj he).1
    · cases he
  · exact .inl ⟨x, hx, v, hv⟩

theorem plainReads_subset : plainReads p.pairedBlock ⊆ plainReads block := by
  intro v hv
  rcases mem_append.1 hv with hv | hv
  · obtain ⟨x, hx, hv⟩ := mem_flatMap.1 hv
    rcases p.mem_paired hx with hx | rfl | rfl
    · exact mem_append_left _ (mem_flatMap.2 ⟨x, hx, hv⟩)
    · exact mem_append_left _ (mem_flatMap.2 ⟨_, p.dec_mem, hv⟩)
    · exact mem_append_left _ (mem_flatMap.2 ⟨_, p.construct_mem, hv⟩)
  · exact mem_append_right _ hv

/-- Pairs nest if nothing is reset between the two. -/
theorem nested (h : opened? [] block.code = some [])
    (hno : ∀ token v, .reset token v ∉ p.between) : opened? [] p.paired = some [] := by
  have hplain : ∀ x ∈ p.between, isPlain x = true := by
    intro x hx
    cases x with
    | reset token v => exact absurd hx (hno token v)
    | reuse dst token type variant args => exact absurd hx (p.noReuse dst token type variant args)
    | _ => rfl
  rw [p.code, opened?_append] at h
  rw [paired, opened?_append]
  cases hbefore : opened? [] p.before with
  | none =>
    rw [hbefore] at h
    cases h
  | some tokens =>
    rw [hbefore] at h
    simp only [bind_some, opened?_cons, opened?_append] at h ⊢
    rw [show opens? tokens (.dec p.var) = some tokens from rfl, bind_some,
      opened?_of_isPlain hplain, bind_some] at h
    rw [show opens? tokens (.reset f.types.size p.var) = some (f.types.size :: tokens) from rfl,
      bind_some, opened?_of_isPlain hplain, bind_some, Rebuild.reuse, opens?_reuse,
      head?_cons, if_pos rfl]
    exact h

/-- Pairs stay nested. -/
theorem paired_pairedFunc (hf : Valid .counted f) (hpaired : Paired f)
    (hblock : f.block? b = some block) (hno : ∀ token v, .reset token v ∉ p.between) :
    Paired (p.pairedFunc b) := by
  have hmem := mem_of_getElem? hblock
  refine ⟨fun x hx => ?_, fun token htoken x hx => ?_⟩
  · rcases p.mem_blocks hblock hx with rfl | hx
    · exact p.nested (hpaired.nested block hmem) hno
    · exact hpaired.nested x hx
  · have hold : ∃ y ∈ f.blocks, plainReads x ⊆ plainReads y := by
      rcases p.mem_blocks hblock hx with rfl | hx
      · exact ⟨block, hmem, p.plainReads_subset⟩
      · exact ⟨x, hx, Subset.refl _⟩
    obtain ⟨y, hy, hsub⟩ := hold
    intro hread
    rcases p.isToken_of_pairedFunc hblock htoken with htoken | rfl
    · exact hpaired.apart token htoken y hy (hsub hread)
    · exact not_mem_defs hf.toWellFormed
        (hf.defined y hy _ (Reuse.plainReads_subset y (hsub hread)))

/-- Instructions stay, but for the release and the construction. -/
theorem becomes : Forall₂ Becomes block.code p.paired := by
  have hrefl : ∀ code : List Instr, Forall₂ Becomes code code :=
    fun code => forall₂_same.2 fun x _ => .same x
  rw [p.code, paired]
  exact rel_append (hrefl _) (.cons (.reset _ _)
    (rel_append (hrefl _) (.cons (.reuse _ _) (hrefl _))))

omit p in
/-- What holds and what frees a variable still does. -/
theorem keeps_of_becomes {x y : Instr} (h : Becomes x y) : (∀ v, Holds v x → Holds v y) ∧
    (∀ v, Frees v y → Frees v x) ∧ ∀ v, y = .inc v → x = .inc v := by
  cases h with
  | same => exact ⟨fun _ h => h, fun _ h => h, fun _ h => h⟩
  | reset token v =>
    refine ⟨fun v h => (by cases h.2.1), fun v h => ?_, fun v h => (by cases h)⟩
    rcases h with h | ⟨token, h⟩
    · cases h
    · exact .inl (by rw [(Instr.reset.inj h).2])
  | reuse r token =>
    refine ⟨fun v h => ⟨.tail _ h.1, rfl, fun token he => (by cases he)⟩,
      fun v h => ?_, fun v h => (by cases h)⟩
    rcases h with h | ⟨token, h⟩ <;> cases h

/-- Counts stay anchored. -/
theorem anchored (hf : WellFormed f) (hanchored : Anchored f) (hblock : f.block? b = some block) :
    Anchored (p.pairedFunc b) := by
  have hr := p.replaces hf hblock
  -- every block stems from one with the same edges
  have hback : ∀ i x, (p.pairedFunc b).block? i = some x → ∃ x₀, f.block? i = some x₀ ∧
      x.term = x₀.term ∧ Forall₂ Becomes x₀.code x.code := by
    intro i x hx
    rcases hr.block_cases hx with ⟨rfl, rfl⟩ | ⟨-, hold⟩ | ⟨j, -, hj⟩
    · exact ⟨block, hblock, rfl, p.becomes⟩
    · exact ⟨x, hold, rfl, forall₂_same.2 fun x _ => .same x⟩
    · cases hj
  have hforth : ∀ i x₀, f.block? i = some x₀ → ∃ x, (p.pairedFunc b).block? i = some x := by
    intro i x₀ hx₀
    by_cases hib : i = b
    · rw [hib]
      exact ⟨_, hr.block?_here⟩
    · exact ⟨x₀, hr.block?_old hib hx₀⟩
  intro i x hx hloop
  obtain ⟨x₀, hx₀, hterm, hcode⟩ := hback i x hx
  have hsucc : x.successors = x₀.successors := by rw [Block.successors, hterm, Block.successors]
  rw [hsucc] at hloop
  refine ((hanchored i x₀ hx₀ hloop).replace (K := fun _ => True) (hcode.imp fun _ _ h =>
    ⟨fun v _ => (keeps_of_becomes h).1 v,
      fun v hv => ⟨(keeps_of_becomes h).2.2 v hv, trivial⟩⟩)).mono ?_
  rintro v - (hv | ⟨t, ht, target₀, htarget₀, hv⟩)
  · exact .inl (by rwa [Block.termUses, hterm])
  · obtain ⟨target, htarget⟩ := hforth t target₀ htarget₀
    obtain ⟨target₀', htarget₀', -, hcode'⟩ := hback t target htarget
    rw [htarget₀] at htarget₀'
    cases htarget₀'
    exact .inr ⟨t, hsucc ▸ ht, target, htarget,
      hv.replace (hcode'.imp fun _ _ h => ⟨(keeps_of_becomes h).1 v, (keeps_of_becomes h).2.1 v⟩)⟩

theorem type?_pairedFunc {v : Var} (hv : v < f.types.size) :
    (p.pairedFunc b).type? v = f.type? v := by
  unfold type? pairedFunc modifyBlock newVar
  exact Array.getElem?_push_lt hv |>.trans (Array.getElem?_eq_getElem hv).symm

/-- What is reset is boxed. -/
theorem resetsBoxed (hboxed : ResetsBoxed pool f) (hblock : f.block? b = some block) :
    ResetsBoxed pool (p.pairedFunc b) := by
  intro x hx token v hv
  obtain ⟨t, ht, hboxed⟩ : ∃ t, f.type? v = some t ∧ pool.isBoxed t = true := by
    rcases p.mem_blocks hblock hx with rfl | hx
    · rcases p.mem_paired hv with hv | he | he
      · exact hboxed block (mem_of_getElem? hblock) token v hv
      · rw [(Instr.reset.inj he).2]
        exact ⟨p.type, p.typed, p.boxed⟩
      · cases he
    · exact hboxed x hx token v hv
  exact ⟨t, (p.type?_pairedFunc (Array.getElem?_eq_some_iff.1 ht).1).trans ht, hboxed⟩

/-- Where the reuse of a pair stands. -/
def last : Nat := i + 1 + p.between.length

/-- What stands where in the code with the pair. -/
theorem getElem?_paired {k : Nat} : p.paired[k]? =
    if k = p.last then some (p.rebuild.reuse f.types.size)
    else if k = i then some (.reset f.types.size p.var) else block.code[k]? := by
  have hlt : p.last < block.code.length := by
    have hlength := p.length
    rw [p.code, last]
    simp
    omega
  have hi : i < block.code.length := by
    unfold last at hlt
    omega
  rw [p.paired_eq_set, List.getElem?_set, List.getElem?_set, List.length_set]
  unfold last at hlt ⊢
  split_ifs <;> first | rfl | omega

theorem lt_last : i < p.last := by
  unfold last
  omega

/-- The reset stands where the release stood. -/
theorem getElem?_paired_reset : p.paired[i]? = some (.reset f.types.size p.var) := by
  rw [p.getElem?_paired, if_neg p.lt_last.ne, if_pos rfl]

theorem getElem?_dec : block.code[i]? = some (.dec p.var) := by
  rw [p.code, List.getElem?_append_right p.length.le, p.length, Nat.sub_self]
  rfl

theorem getElem?_last : block.code[p.last]? = some (p.rebuild.construct p.rebuild.dst) := by
  rw [p.code, List.getElem?_append_right (by rw [last, p.length]; omega), last, p.length,
    Nat.add_assoc, Nat.add_sub_cancel_left, Nat.add_comm 1, List.getElem?_cons_succ,
    List.getElem?_append_right le_rfl, Nat.sub_self]
  rfl

/-- What stands between the two. -/
theorem mem_between {k : Nat} {x : Instr} (hk : i < k) (hlast : k < p.last)
    (hx : block.code[k]? = some x) :
    x ∈ p.between := by
  rw [p.code, List.getElem?_append_right (by rw [p.length]; omega), p.length] at hx
  obtain ⟨m, hm⟩ : ∃ m, k - i = m + 1 := ⟨k - i - 1, by omega⟩
  rw [hm, List.getElem?_cons_succ, List.getElem?_append_left (by unfold last at hlast; omega)] at hx
  exact mem_of_getElem? hx

theorem map_evidenceOf (hblock : f.block? b = some block) :
    (p.pairedFunc b).blocks.map evidenceOf = f.blocks.map evidenceOf := by
  refine ext_getElem? fun i => ?_
  simp only [pairedFunc, modifyBlock, newVar, Array.getElem?_map, Array.getElem?_modify]
  by_cases hi : b = i
  · subst hi
    have hget : f.blocks[b]? = some block := hblock
    rw [if_pos rfl, hget]
    simp [evidenceOf, map_evidence_of_becomes p.becomes]
  · rw [if_neg hi]

/-- What is known stays known. -/
theorem knownVariant?_eq (hblock : f.block? b = some block) {v : Var} (hv : v < f.types.size)
    (c : BlockId) {before before' : List Instr}
    (hbefore : before.map evidence = before'.map evidence) :
    knownVariant? pool (p.pairedFunc b) c before v = knownVariant? pool f c before' v :=
  knownVariant?_congr (p.map_evidenceOf hblock) (p.type?_pairedFunc hv) c hbefore

/-- The variants of all that is reset are still known. -/
theorem resetsKnown (hboxed : ResetsBoxed pool f) (hknown : ResetsKnown pool f)
    (hblock : f.block? b = some block) : ResetsKnown pool (p.pairedFunc b) := by
  have hlt : ∀ {v t}, f.type? v = some t → v < f.types.size := fun h =>
    (Array.getElem?_eq_some_iff.1 h).1
  intro x hx k token v hk
  obtain ⟨c, hc⟩ := mem_iff_getElem?.1 hx
  simp only [pairedFunc, modifyBlock, newVar, Array.getElem?_modify] at hc
  by_cases hcb : b = c
  · subst hcb
    have hget : f.blocks[b]? = some block := hblock
    rw [if_pos rfl, hget] at hc
    cases hc
    have htake : (p.paired.take k).map evidence = (block.code.take k).map evidence :=
      (map_evidence_of_becomes (forall₂_take k p.becomes)).symm
    dsimp only at hk ⊢
    rw [p.getElem?_paired] at hk
    split at hk
    · cases hk
    · split at hk
      · next hki =>
        cases hk
        rw [p.knownVariant?_eq hblock (hlt p.typed) _ htake, hki, p.code, take_left' p.length]
        exact p.known
      · obtain ⟨t, ht, -⟩ := hboxed block (mem_of_getElem? hblock) token v (mem_of_getElem? hk)
        rw [p.knownVariant?_eq hblock (hlt ht) _ htake]
        exact hknown block (mem_of_getElem? hblock) k token v hk
  · rw [if_neg hcb] at hc
    have hmem := mem_of_getElem? hc
    obtain ⟨t, ht, -⟩ := hboxed x hmem token v (mem_of_getElem? hk)
    rw [p.knownVariant?_eq hblock (hlt ht) _ rfl]
    exact hknown x hmem k token v hk

/-- A construction becomes a reset and a reuse. -/
theorem keys_perm (hf : WellFormed f) (hblock : f.block? b = some block) :
    (p.rebuild.construct p.rebuild.dst :: keys (p.pairedFunc b)).Perm
      (.reset f.types.size p.var :: p.rebuild.reuse f.types.size :: keys f) := by
  classical
  obtain ⟨rest, hold, hnew⟩ := (p.replaces hf hblock).flatMap_perm keysOf
  refine (hnew.cons _).trans (.trans ?_ ((hold.symm.cons _).cons _))
  rw [keysOf, keysOf, pairedBlock, paired, p.code]
  simp only [List.filter_append, List.filter_cons, isKey, Rebuild.reuse, Rebuild.construct,
    if_true, flatMap_nil, append_nil, Bool.false_eq_true, if_false]
  rw [perm_iff_count]
  intro x
  simp only [List.count_cons, List.count_append]
  omega

/-- A function with one more pair. -/
theorem annotated (hf : Annotated pool f) (hblock : f.block? b = some block)
    (hno : ∀ token v, .reset token v ∉ p.between) : Annotated pool (p.pairedFunc b) where
  valid := p.valid hf.valid hblock
  paired := p.paired_pairedFunc hf.valid hf.paired hblock hno
  anchored := p.anchored hf.valid.toWellFormed hf.anchored hblock
  boxed := p.resetsBoxed hf.boxed hblock
  known := p.resetsKnown hf.boxed hf.known hblock

end Pairing

-- ======== function

section Induction

variable {P : Nat → Nat → Func × Nat → Prop}
  (hskip : ∀ {b i s}, P b i s →
    (∀ block, s.1.block? b = some block → pairAt pool s.1 block i = .ok none) → P b (i + 1) s)
  (hpair : ∀ {b i s block}, P b i s → s.1.block? b = some block →
    ∀ p : Pairing pool s.1 block i, P b (i + 1) (p.pairedFunc b, s.2 + 1))
  (hnext : ∀ {b i s}, P b i s →
    (∀ block, s.1.block? b = some block → block.code.length ≤ i) → P (b + 1) 0 s)
include hskip hpair

/-- A place is looked at, whether or not it is paired. -/
theorem annotateAt_run {i : Nat} {s s' : Func × Nat} (h : P b i s)
    (hs : annotateAt pool b s i = .ok s') : P b (i + 1) s' ∧
      (s'.1.block? b).map (·.code.length) = (s.1.block? b).map (·.code.length) := by
  unfold annotateAt at hs
  cases hblock : s.1.block? b with
  | none =>
    rw [hblock] at hs
    cases hs
    refine ⟨hskip h fun block hb => ?_, by rw [hblock]⟩
    rw [hblock] at hb
    cases hb
  | some block =>
    rw [hblock] at hs
    obtain ⟨r, hr, hs⟩ := bind_ok hs
    cases r with
    | none =>
      cases hs
      refine ⟨hskip h fun block' hb => ?_, by rw [hblock]⟩
      rw [hblock] at hb
      cases hb
      exact hr
    | some r =>
      obtain ⟨p, rfl⟩ := pairAt_eq_some hr
      cases hs
      refine ⟨hpair h hblock p, ?_⟩
      have hhere : (p.pairedFunc b).block? b = some p.pairedBlock := by
        rw [p.block?_pairedFunc hblock, if_pos rfl]
      refine (congrArg _ hhere).trans ?_
      exact congrArg some p.becomes.length_eq.symm

include hnext

/-- What holds of a function before its releases are paired, whether or not the
next one is, and from one block to the next, holds in the end. -/
theorem annotate_run {s : Func × Nat} (h : P 0 0 (f, 0)) (hs : annotate pool f = .ok s) :
    P f.blocks.size 0 s := by
  refine foldlM_range_run (P := fun b s => P b 0 s) (fun b s s' hP hs' => ?_) h hs
  obtain ⟨hend, hlength⟩ := foldlM_range_run (P := fun i t => P b i t ∧
    (t.1.block? b).map (·.code.length) = (s.1.block? b).map (·.code.length))
    (fun i t t' ht ht' => by
      obtain ⟨hP', hlength⟩ := annotateAt_run hskip hpair ht.1 ht'
      exact ⟨hP', hlength.trans ht.2⟩) ⟨hP, rfl⟩ hs'
  refine hnext hend fun block hblock => ?_
  rw [← hlength, hblock]
  exact le_rfl

end Induction

/-- A valid function stays valid. -/
theorem annotate_valid {s : Func × Nat} (hf : Valid .counted f) (hs : annotate pool f = .ok s) :
    Valid .counted s.1 :=
  annotate_run (P := fun _ _ (s : Func × Nat) => Valid .counted s.1) (fun h _ => h)
    (fun h hblock p => p.valid h hblock) (fun h _ => h) hf hs

/-- Pairing has a result on every valid function. -/
theorem exists_annotate (pool : Pool) (hf : Valid .counted f) : ∃ s, annotate pool f = .ok s := by
  suffices h : ∃ s, annotate pool f = .ok s ∧ Valid .counted s.1 from h.imp fun _ h => h.1
  refine foldlM_range_ok (P := fun _ (s : Func × Nat) => Valid .counted s.1) _
    (fun b s _ hs => ?_) hf
  refine foldlM_range_ok (P := fun _ (s : Func × Nat) => Valid .counted s.1) _
    (fun i t _ ht => ?_) hs
  unfold annotateAt
  cases hblock : t.1.block? b with
  | none => exact ⟨t, rfl, ht⟩
  | some block =>
    dsimp only
    rcases pairAt_ok pool ht hblock i with hnone | ⟨p, hsome⟩
    · rw [hnone]
      exact ⟨t, rfl, ht⟩
    · rw [hsome]
      exact ⟨(p.pairedFunc b, t.2 + 1), rfl, p.valid ht hblock⟩

/-- Whether a block resets nothing from a position on. -/
def Untouched (f : Func) (b : BlockId) (i : Nat) : Prop :=
  ∀ block, f.block? b = some block → ∀ token v, .reset token v ∉ block.code.drop i

/-- Where the pairing of a function stands: the releases of some blocks have been
looked at, and those of the next up to a position. -/
structure Progress (pool : Pool) (n : Nat) (b : BlockId) (i : Nat) (f : Func) : Prop where
  annotated : Annotated pool f
  size : f.blocks.size = n
  here : Untouched f b i
  later : ∀ c, b < c → Untouched f c 0

/-- By how much pairs are more, there are more resets; and no tests come or
go. -/
def Tallied (s s' : Func × Nat) : Prop :=
  s.2 + resetCount s'.1 = s'.2 + resetCount s.1 ∧
    (keys s'.1).countP isTest = (keys s.1).countP isTest

theorem Tallied.trans {s s' s'' : Func × Nat} (h : Tallied s s') (h' : Tallied s' s'') :
    Tallied s s'' :=
  ⟨by have := h.1; have := h'.1; omega, h'.2.trans h.2⟩

/-- A place without a pair is passed. -/
theorem Progress.skip {n i : Nat} (h : Progress pool n b i f) : Progress pool n b (i + 1) f := by
  refine ⟨h.annotated, h.size, fun block hblock token v hv => ?_, h.later⟩
  refine h.here block hblock token v ?_
  rw [← drop_drop] at hv
  exact mem_of_mem_drop hv

/-- A pair is made at a place, and no reset stands behind it. -/
theorem Progress.pair {n i : Nat} (h : Progress pool n b i f) (hblock : f.block? b = some block)
    (p : Pairing pool f block i) : Progress pool n b (i + 1) (p.pairedFunc b) := by
  have hdrop : block.code.drop i = .dec p.var ::
      (p.between ++ p.rebuild.construct p.rebuild.dst :: p.behind) := by
    rw [p.code, drop_left' p.length]
  have hno : ∀ token v, .reset token v ∉ .dec p.var ::
      (p.between ++ p.rebuild.construct p.rebuild.dst :: p.behind) := by
    intro token v
    rw [← hdrop]
    exact h.here block hblock token v
  have hr := p.replaces h.annotated.valid.toWellFormed hblock
  have hannotated := p.annotated h.annotated hblock fun token v hv =>
    hno token v (.tail _ (mem_append_left _ hv))
  refine ⟨hannotated, ?_, ?_, ?_⟩
  · rw [← h.size]
    simp [Pairing.pairedFunc, newVar, modifyBlock]
  · intro x hx token v hv
    rw [hr.block?_here] at hx
    cases hx
    have hdrop' : p.pairedBlock.code.drop (i + 1) =
        p.between ++ p.rebuild.reuse f.types.size :: p.behind := by
      unfold Pairing.pairedBlock Pairing.paired
      dsimp only
      rw [← drop_drop, drop_left' p.length]
      rfl
    rw [hdrop'] at hv
    rcases mem_append.1 hv with hv | hv
    · exact hno token v (.tail _ (mem_append_left _ hv))
    · rcases mem_cons.1 hv with he | hv
      · cases he
      · exact hno token v (mem_cons_of_mem _ (mem_append_right _ (.tail _ hv)))
  · intro c hc x hx
    have hne : c ≠ b := ne_of_gt hc
    rcases hr.block_cases hx with ⟨heq, -⟩ | ⟨-, hold⟩ | ⟨j, -, hj⟩
    · exact absurd heq hne
    · exact h.later c hc x hold
    · cases hj

/-- The number of pairs goes up with that of resets. -/
theorem Pairing.tallied {i k : Nat} (hf : WellFormed f) (hblock : f.block? b = some block)
    (p : Pairing pool f block i) : Tallied (f, k) (p.pairedFunc b, k + 1) := by
  have hperm := p.keys_perm hf hblock
  have hcount := hperm.countP_eq isReset
  rw [countP_cons_of_neg Bool.false_ne_true, countP_cons_of_pos rfl,
    countP_cons_of_neg Bool.false_ne_true, ← resetCount_eq_countP,
    ← resetCount_eq_countP] at hcount
  refine ⟨by dsimp only; omega, ?_⟩
  have htests := hperm.countP_eq isTest
  rwa [countP_cons_of_neg Bool.false_ne_true, countP_cons_of_neg Bool.false_ne_true,
    countP_cons_of_neg Bool.false_ne_true] at htests

/-- Releases can be paired in every valid function without tokens, and the
result is valid. -/
theorem annotate_annotated (pool : Pool) (hf : Valid .expanded f) (hanchored : Anchored f) :
    ∃ s, annotate pool f = .ok s ∧ Annotated pool s.1 ∧ s.2 = resetCount s.1 ∧
      (keys s.1).countP isTest = (keys f).countP isTest := by
  have hno : ∀ block ∈ f.blocks, ∀ x ∈ block.code, isPlain x = true := by
    intro block hblock x hx
    have hstage := hf.staged block hblock x hx
    cases x with
    | reset => cases hstage
    | reuse => cases hstage
    | _ => rfl
  have hreset : ∀ block ∈ f.blocks, ∀ token v, .reset token v ∉ block.code :=
    fun block hblock token v hv => Bool.false_ne_true (hno block hblock _ hv)
  have hstart : Annotated pool f := by
    refine ⟨hf.counted, ⟨fun block hblock => opened?_of_isPlain (hno block hblock), ?_⟩,
      hanchored, fun block hblock token v hv => absurd hv (hreset block hblock token v),
      fun block hblock i token v hv =>
        absurd (mem_of_getElem? hv) (hreset block hblock token v)⟩
    rintro token ⟨block, hblock, v, hv⟩
    exact absurd hv (hreset block hblock token v)
  have huntouched : ∀ c i, Untouched f c i := fun c i block hblock token v hv =>
    hreset block (mem_of_getElem? hblock) token v (mem_of_mem_drop hv)
  have hzero : resetCount f = 0 := by
    rw [resetCount, length_eq_zero_iff, filter_eq_nil_iff]
    intro x hx hisReset
    obtain ⟨block, hblock, hx⟩ := mem_flatMap.1 hx
    cases x with
    | reset token v => exact hreset block (mem_toList_iff.1 hblock) token v hx
    | _ => cases hisReset
  obtain ⟨s, hs⟩ := exists_annotate pool hstart.valid
  obtain ⟨hprogress, hcount⟩ := annotate_run
    (P := fun b i s => Progress pool f.blocks.size b i s.1 ∧ Tallied (f, 0) s)
    (fun h _ => ⟨h.1.skip, h.2⟩)
    (fun h hblock p => ⟨h.1.pair hblock p,
      h.2.trans (p.tallied h.1.annotated.valid.toWellFormed hblock)⟩)
    (fun {b} _ _ h _ => ⟨⟨h.1.annotated, h.1.size, h.1.later (b + 1) (Nat.lt_succ_self b),
      fun c hc => h.1.later c (Nat.lt_of_succ_lt hc)⟩, h.2⟩)
    ⟨⟨hstart, rfl, huntouched 0 0, fun c _ => huntouched c 0⟩, rfl, rfl⟩ hs
  have hpairs := hcount.1
  dsimp only at hpairs
  exact ⟨s, hs, hprogress.annotated, by omega, hcount.2⟩

end RefCount.Reuse
