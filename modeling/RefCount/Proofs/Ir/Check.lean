/-
What the check of a graph says about it. A function passes at a stage exactly
if it is `Valid`: it has a block for its entry, which no edge leads to; every
block carries the number of its place and has a terminator; edges lead to
blocks that take what they hand over; no variable has two definitions and every
one that is read has one; instructions are ones that the stage allows; and in
every block that can be reached, every use is of a variable that all ways there
have defined.
-/
import Mathlib
import RefCount.Ir.Check
import RefCount.Proofs.Ir.Dominators
import RefCount.Proofs.Ir.Supply
import RefCount.Proofs.Outcome

namespace RefCount.Ir

open List Option Array Func

variable {b : BlockId} {j : Nat} {code : List Instr}

/-- An edge of a block leads to a block that takes what it hands over. -/
def EdgeFits (b target : Block) : Prop :=
  match b.term with
  | some (.jump _ args) => args.length = target.params.length
  | _ => target.params = []

/-- What a function that passes the check is like, but for its uses. -/
structure WellFormed (f : Func) : Prop where
  entry : ∃ b, f.block? f.entry = some b
  entryFree : f.preds f.entry = []
  id : ∀ i b, f.block? i = some b → b.id = i
  nodup : f.defs.Nodup
  bound : ∀ v ∈ f.defs, v < f.types.size
  term : ∀ b ∈ f.blocks, b.term.isSome
  edge : ∀ b ∈ f.blocks, ∀ t ∈ b.successors, ∃ target, f.block? t = some target ∧
    EdgeFits b target

/-- What a function that passes the check at a stage is like. -/
structure Valid (stage : Stage) (f : Func) : Prop extends WellFormed f where
  staged : ∀ b ∈ f.blocks, ∀ x ∈ b.code, checkStage stage b.id x = .ok ()
  defined : ∀ b ∈ f.blocks, ∀ v ∈ b.reads, v ∈ f.defs
  supported : f.AllSupported

/-- A function with counts may hold every instruction. -/
theorem checkStage_counted (b : BlockId) (x : Instr) : checkStage .counted b x = .ok () := by
  cases x with
  | _ => rfl

theorem Valid.counted {stage : Stage} {f : Func} (hf : Valid stage f) : Valid .counted f :=
  ⟨hf.toWellFormed, fun b _ x _ => checkStage_counted b.id x, hf.defined, hf.supported⟩

namespace WellFormed

variable {f : Func} {b t : BlockId} {block : Block}

theorem lt_of_successor (hf : WellFormed f) (ht : t ∈ f.successors b) : t < f.blocks.size := by
  obtain ⟨block, hb, ht⟩ := exists_of_successor ht
  obtain ⟨target, htarget, -⟩ := hf.edge block (mem_of_getElem? hb) t ht
  exact Func.block_lt htarget

theorem numbered (hf : WellFormed f) : Dominators.Numbered f where
  entry := by
    obtain ⟨block, hb⟩ := hf.entry
    exact Func.block_lt hb
  id := hf.id

/-- No edge leads to the entry. -/
theorem entry_not_successor (hf : WellFormed f) : f.entry ∉ f.successors b := by
  intro hb
  have hmem := (mem_preds_iff hf.id).2 hb
  rw [hf.entryFree] at hmem
  cases hmem

end WellFormed

-- ======== sites

/-- Where the instructions of a piece of code define variables, the first of
them at a position of a block. -/
def codeSites (b : BlockId) : Nat → List Instr → List (Var × Site)
  | _, [] => []
  | j, x :: rest => x.def?.toList.map (·, ⟨b, some j⟩) ++ codeSites b (j + 1) rest

/-- Where a block defines variables. -/
def Block.sites (b : Block) : List (Var × Site) :=
  b.params.map (·, ⟨b.id, none⟩) ++ codeSites b.id 0 b.code

/-- Where a function defines variables. -/
def Func.allSites (f : Func) : List (Var × Site) :=
  f.params.map (fun p => (p.var, ⟨f.entry, none⟩)) ++ f.blocks.toList.flatMap Block.sites

theorem map_fst_codeSites : (codeSites b j code).map Prod.fst = code.filterMap Instr.def? := by
  induction code generalizing j with
  | nil => rfl
  | cons x code ih =>
    rw [codeSites, List.map_append, ih, List.filterMap_cons]
    cases x.def? with
    | none => rfl
    | some v => rfl

theorem mem_codeSites {v : Var} {site : Site} : (v, site) ∈ codeSites b j code ↔
      ∃ i x, code[i]? = some x ∧ x.def? = some v ∧ site = ⟨b, some (j + i)⟩ := by
  induction code generalizing j with
  | nil => simp [codeSites]
  | cons x code ih =>
    rw [codeSites, List.mem_append, ih]
    constructor
    · rintro (h | ⟨i, y, hy, hd, rfl⟩)
      · obtain ⟨u, hu, he⟩ := mem_map.1 h
        cases he
        exact ⟨0, x, rfl, mem_toList.1 hu, rfl⟩
      · exact ⟨i + 1, y, hy, hd, by rw [add_assoc, add_comm 1 i]⟩
    · rintro ⟨i, y, hy, hd, rfl⟩
      cases i with
      | zero =>
        cases hy
        exact .inl (mem_map.2 ⟨v, mem_toList.2 hd, rfl⟩)
      | succ i => exact .inr ⟨i, y, hy, hd, by rw [add_assoc, add_comm 1 i]⟩

theorem Block.map_fst_sites (b : Block) : b.sites.map Prod.fst = b.defs := by
  rw [sites, List.map_append, map_fst_codeSites, List.map_map, defs]
  simp [Function.comp_def]

theorem Func.map_fst_allSites (f : Func) : f.allSites.map Prod.fst = f.defs := by
  rw [allSites, List.map_append, List.map_map, List.map_flatMap, defs]
  simp only [Block.map_fst_sites]
  rfl

/-- Where variables are defined. -/
theorem Func.mem_allSites {f : Func} (hid : f.Keyed) {v : Var}
    {site : Site} : (v, site) ∈ f.allSites ↔ (v ∈ f.params.map (·.var) ∧ site = ⟨f.entry, none⟩) ∨
      ∃ b block, f.block? b = some block ∧ ((v ∈ block.params ∧ site = ⟨b, none⟩) ∨
        ∃ (j : Nat) (x : Instr), block.code[j]? = some x ∧ x.def? = some v ∧
          site = ⟨b, some j⟩) := by
  rw [allSites, List.mem_append, List.mem_flatMap]
  refine or_congr ?_ ?_
  · simp only [List.mem_map, Prod.mk.injEq]
    constructor
    · rintro ⟨p, hp, rfl, rfl⟩
      exact ⟨⟨p, hp, rfl⟩, rfl⟩
    · rintro ⟨⟨p, hp, rfl⟩, rfl⟩
      exact ⟨p, hp, rfl, rfl⟩
  · have hsites : ∀ block : Block, (v, site) ∈ block.sites ↔
        (v ∈ block.params ∧ site = ⟨block.id, none⟩) ∨
        ∃ (j : Nat) (x : Instr), block.code[j]? = some x ∧ x.def? = some v ∧
          site = ⟨block.id, some j⟩ := by
      intro block
      rw [Block.sites, List.mem_append, mem_codeSites]
      refine or_congr ?_ ?_
      · simp only [List.mem_map, Prod.mk.injEq]
        constructor
        · rintro ⟨u, hu, rfl, rfl⟩
          exact ⟨hu, rfl⟩
        · rintro ⟨hu, rfl⟩
          exact ⟨v, hu, rfl, rfl⟩
      · simp only [zero_add]
    constructor
    · rintro ⟨block, hblock, h⟩
      obtain ⟨i, hi⟩ := mem_iff_getElem?.1 (mem_toList_iff.1 hblock)
      rw [hsites, hid i block hi] at h
      exact ⟨i, block, hi, h⟩
    · rintro ⟨b, block, hb, h⟩
      refine ⟨block, mem_toList_iff.2 (mem_of_getElem? hb), ?_⟩
      rwa [hsites, hid b block hb]

namespace Sites

variable {s s' : Sites} {v : Var} {ps qs : List (Var × Site)} {n : Nat} {site : Site}
variable {ok ok' : Prop} {record record' : Sites → Except Violation Sites}

/-- The definitions that have been recorded, among so many variables. -/
structure Records (s : Sites) (n : Nat) (ps : List (Var × Site)) : Prop where
  size : s.size = n
  nodup : (ps.map Prod.fst).Nodup
  site : ∀ v site, s.site? v = some site ↔ (v, site) ∈ ps
  bound : ∀ p ∈ ps, p.1 < n

theorem Records.isSome (hs : s.Records n ps) : (s.site? v).isSome ↔ v ∈ ps.map Prod.fst := by
  rw [isSome_iff_exists]
  simp [hs.site]

theorem records_empty (n : Nat) : Records (Array.replicate n none) n [] where
  size := size_replicate
  nodup := nodup_nil
  site v t := by
    rw [site?, getD_of_replicate]
    simp
  bound _ hv := nomatch hv

/-- A definition can be recorded if it is the first of a variable that there
is. -/
theorem Records.define_ok (hs : s.Records n ps) : s.define v site = .ok s' ↔
      v < n ∧ v ∉ ps.map Prod.fst ∧ s' = s.setIfInBounds v (some site) := by
  unfold Sites.define
  rw [hs.size]
  by_cases hv : n ≤ v
  · rw [if_pos hv]
    refine ⟨fun h => (by cases h), fun h => absurd h.1 (not_lt.2 hv)⟩
  · rw [if_neg hv]
    by_cases hnew : v ∈ ps.map Prod.fst
    · rw [if_pos (hs.isSome.2 hnew)]
      refine ⟨fun h => (by cases h), fun h => absurd hnew h.2.1⟩
    · rw [if_neg fun h => hnew (hs.isSome.1 h)]
      refine ⟨fun h => ⟨not_le.1 hv, hnew, (Except.ok.inj h).symm⟩, fun h => ?_⟩
      rw [h.2.2]

/-- A definition is recorded. -/
theorem Records.define (hs : s.Records n ps) (h : s.define v site = .ok s') :
    s'.Records n (ps ++ [(v, site)]) := by
  obtain ⟨hv, hnew, rfl⟩ := hs.define_ok.1 h
  refine ⟨by simp [hs.size], ?_, fun u t => ?_, fun p hp => ?_⟩
  · rw [List.map_append]
    refine nodup_append.2 ⟨hs.nodup, nodup_singleton v, fun a ha b hb hab => ?_⟩
    rw [hab, mem_singleton.1 hb] at ha
    exact hnew ha
  · have hsite : site? (s.setIfInBounds v (some site)) u =
        if u = v then some site else s.site? u := getD_setIfInBounds (hs.size ▸ hv) u
    rw [hsite, List.mem_append, List.mem_singleton, Prod.mk.injEq, ← hs.site]
    split
    · next he =>
      subst he
      have hnone : s.site? u = none := by
        by_contra hsome
        exact hnew (hs.isSome.1 (isSome_iff_ne_none.2 hsome))
      rw [hnone]
      simp [eq_comm]
    · next hne => simp [hne]
  · rcases mem_append.1 hp with hp | hp
    · exact hs.bound p hp
    · rw [mem_singleton.1 hp]
      exact hv

/-- Recording definitions, whatever computation does so one by one. -/
structure Recording (n : Nat) (qs : List (Var × Site)) (ok : Prop)
    (record : Sites → Except Violation Sites) : Prop where
  sound : ∀ s s' ps, s.Records n ps → record s = .ok s' → s'.Records n (ps ++ qs) ∧ ok
  total : ∀ s ps, s.Records n ps → ok → ((ps ++ qs).map Prod.fst).Nodup →
    (∀ q ∈ qs, q.1 < n) → ∃ s', record s = .ok s'

theorem recording_nil (n : Nat) : Recording n [] True (fun s => .ok s) where
  sound s s' ps hs h := by
    cases h
    exact ⟨by rwa [append_nil], trivial⟩
  total s _ _ _ _ _ := ⟨s, rfl⟩

theorem recording_define (n : Nat) (v : Var) (site : Site) :
    Recording n [(v, site)] True (fun s => s.define v site) where
  sound s s' ps hs h := ⟨hs.define h, trivial⟩
  total s ps hs _ hnd hlt := by
    refine ⟨_, hs.define_ok.2 ⟨hlt _ (.head _), fun hm => ?_, rfl⟩⟩
    rw [List.map_append, List.nodup_append] at hnd
    exact hnd.2.2 v hm v (.head _) rfl

theorem Recording.congr (h : Recording n ps ok record) (hlist : ps = qs) (hok : ok ↔ ok')
    (hrecord : ∀ s, record s = record' s) : Recording n qs ok' record' := by
  obtain rfl := hlist
  obtain rfl := propext hok
  obtain rfl := funext hrecord
  exact h

/-- Recording one list after the other. -/
theorem Recording.bind (h : Recording n ps ok record) (h' : Recording n qs ok' record') :
    Recording n (ps ++ qs) (ok ∧ ok') (fun s => record s >>= record') where
  sound s s' rs hs hrun := by
    obtain ⟨s₁, h₁, h₂⟩ := bind_ok hrun
    obtain ⟨hs₁, hok⟩ := h.sound s s₁ rs hs h₁
    obtain ⟨hs₂, hok'⟩ := h'.sound s₁ s' _ hs₁ h₂
    exact ⟨by rwa [← List.append_assoc], hok, hok'⟩
  total s rs hs hok hnd hlt := by
    rw [← List.append_assoc] at hnd
    have hnd' := hnd
    rw [List.map_append] at hnd'
    obtain ⟨s₁, h₁⟩ := h.total s rs hs hok.1 (nodup_append.1 hnd').1
      fun q hq => hlt q (mem_append_left _ hq)
    obtain ⟨s₂, h₂⟩ := h'.total s₁ _ (h.sound s s₁ rs hs h₁).1 hok.2 hnd
      fun q hq => hlt q (mem_append_right _ hq)
    refine ⟨s₂, ?_⟩
    rw [h₁]
    exact h₂

/-- A recording that makes sure of something first. -/
theorem Recording.guard {check : Except Violation Unit} (h : Recording n qs ok record)
    (test : Prop) (hcheck : check = .ok () ↔ test) :
    Recording n qs (test ∧ ok) (fun s => check >>= fun _ => record s) where
  sound s s' ps hs hrun := by
    obtain ⟨⟨⟩, h₁, h₂⟩ := bind_ok hrun
    obtain ⟨hs', hok⟩ := h.sound s s' ps hs h₂
    exact ⟨hs', hcheck.1 h₁, hok⟩
  total s ps hs hok hnd hlt := by
    obtain ⟨s', h'⟩ := h.total s ps hs hok.2 hnd hlt
    refine ⟨s', ?_⟩
    rw [hcheck.2 hok.1]
    exact h'

/-- Recording list after list. -/
theorem recording_foldlM {α : Type} {list : α → List (Var × Site)} (ok : α → Prop)
    {record : α → Sites → Except Violation Sites} :
    ∀ (xs : List α), (∀ x ∈ xs, Recording n (list x) (ok x) (record x)) →
    Recording n (xs.flatMap list) (∀ x ∈ xs, ok x)
      (fun s => xs.foldlM (fun s x => record x s) s) := by
  intro xs
  induction xs with
  | nil =>
    intro _
    refine ⟨fun s s' ps hs h => ⟨((recording_nil n).sound s s' ps hs h).1, ?_⟩,
      fun s ps hs _ hnd hlt => (recording_nil n).total s ps hs trivial hnd hlt⟩
    exact fun x hx => nomatch hx
  | cons x xs ih =>
    intro hall
    have hx := (hall x (.head _)).bind (ih fun y hy => hall y (mem_cons_of_mem x hy))
    refine ⟨fun s s' ps hs h => ?_, fun s ps hs hok hnd hlt => ?_⟩
    · rw [foldlM_cons] at h
      obtain ⟨hs', hok, hoks⟩ := hx.sound s s' ps hs h
      exact ⟨hs', forall_mem_cons.2 ⟨hok, hoks⟩⟩
    · rw [foldlM_cons]
      exact hx.total s ps hs (forall_mem_cons.1 hok) hnd hlt

end Sites

open Sites

variable {f : Func} {stage : Stage} {s s' : Sites} {n : Nat}

theorem recording_defineAll (n : Nat) (vs : List Var) (b : BlockId) :
    Recording n (vs.map (·, ⟨b, none⟩)) True (fun s => s.defineAll vs b) :=
  (recording_foldlM (fun _ => True) vs fun v _ => recording_define n v ⟨b, none⟩).congr
    (flatMap_pure_eq_map _ vs) (by simp) fun _ => rfl

/-- The definitions of some code are recorded if it suits the stage. -/
theorem recording_defineCode (stage : Stage) (n : Nat) (b : BlockId) (code : List Instr) (j : Nat) :
    Recording n (codeSites b j code) (∀ x ∈ code, checkStage stage b x = .ok ())
      (fun s => defineCode stage b s j code) := by
  induction code generalizing j with
  | nil => exact (recording_nil n).congr rfl (by simp) fun _ => rfl
  | cons x code ih =>
    have hdef : Recording n (x.def?.toList.map (·, ⟨b, some j⟩)) True
        (fun s => x.def?.elim (.ok s) fun v => s.define v ⟨b, some j⟩) := by
      cases x.def? with
      | none => exact recording_nil n
      | some v => exact recording_define n v ⟨b, some j⟩
    refine ((hdef.bind (ih (j + 1))).guard (checkStage stage b x = .ok ()) .rfl).congr
      rfl ?_ fun s => ?_
    · rw [forall_mem_cons, true_and]
    · rw [defineCode]
      cases x.def? with
      | none => rfl
      | some v => rfl

/-- What is known of a block whose definitions have been recorded. -/
structure BlockRecorded (stage : Stage) (i : Nat) (b : Block) : Prop where
  id : b.id = i
  code : ∀ x ∈ b.code, checkStage stage b.id x = .ok ()
  term : b.term.isSome

/-- So are those of a block. -/
theorem recording_defineBlock (n i : Nat) (b : Block) :
    Recording n b.sites (BlockRecorded stage i b) (fun s => defineBlock stage s i b) := by
  have hterm : Recording n [] (b.term.isSome)
      (fun s => if b.term.isNone then .error (.notTerminated b.id) else .ok s) := by
    cases b.term with
    | none => exact ⟨fun _ _ _ _ h => (by cases h), fun _ _ _ h => (by cases h)⟩
    | some t => exact (recording_nil n).congr rfl (by simp) fun _ => rfl
  have hbody := (recording_defineAll n b.params b.id).bind
    ((recording_defineCode stage n b.id b.code 0).bind hterm)
  rw [append_nil] at hbody
  by_cases hid : b.id = i
  · refine hbody.congr rfl ⟨fun h => ⟨hid, h.2.1, h.2.2⟩, fun h => ⟨trivial, h.code, h.term⟩⟩
      fun s => ?_
    unfold defineBlock
    rw [if_neg (not_not.2 hid)]
    rfl
  · have hfail : ∀ s, defineBlock stage s i b = .error (.wrongId i b.id) := by
      intro s
      unfold defineBlock
      rw [if_pos hid]
      rfl
    refine ⟨fun s s' ps hs h => ?_, fun s ps hs hok => absurd hok.id hid⟩
    rw [hfail] at h
    cases h

/-- Recording the definitions of a function. -/
theorem sites_ok (f : Func) (stage : Stage) :
    (∀ s, f.sites stage = .ok s → s.Records f.types.size f.allSites ∧
      ∀ i b, f.block? i = some b → BlockRecorded stage i b) ∧
    (f.defs.Nodup → (∀ v ∈ f.defs, v < f.types.size) →
      (∀ i b, f.block? i = some b → BlockRecorded stage i b) → ∃ s, f.sites stage = .ok s) := by
  have hblocks : Recording f.types.size
      (f.blocks.toList.zipIdx.flatMap fun x => Block.sites x.1)
      (∀ x ∈ f.blocks.toList.zipIdx, BlockRecorded stage x.2 x.1)
      (fun s => f.blocks.toList.zipIdx.foldlM (fun s x => defineBlock stage s x.2 x.1) s) :=
    recording_foldlM (fun x : Block × Nat => BlockRecorded stage x.2 x.1) f.blocks.toList.zipIdx
      fun x _ => recording_defineBlock f.types.size x.2 x.1
  have hflat : f.blocks.toList.zipIdx.flatMap (fun x => Block.sites x.1) =
      f.blocks.toList.flatMap Block.sites := by
    rw [← List.flatMap_map, List.zipIdx_map_fst]
  have hparams : (f.params.map (·.var)).map (·, (⟨f.entry, none⟩ : Site)) =
      f.params.map fun p => (p.var, ⟨f.entry, none⟩) := by
    rw [List.map_map]
    rfl
  have hall : (∀ x ∈ f.blocks.toList.zipIdx, BlockRecorded stage x.2 x.1) ↔
      ∀ i b, f.block? i = some b → BlockRecorded stage i b := by
    simp only [Prod.forall, List.mem_zipIdx_iff_getElem?, Array.getElem?_toList]
    exact ⟨fun h i b hb => h b i hb, fun h b i hb => h i b hb⟩
  have hrec := ((recording_defineAll f.types.size (f.params.map (·.var)) f.entry).bind
    hblocks).congr (by rw [hflat, hparams]; rfl : _ = f.allSites)
      (by rw [true_and, hall]) fun _ => rfl
  refine ⟨fun s h => ?_, fun hnd hlt hok => ?_⟩
  · have := hrec.sound _ s [] (records_empty f.types.size) h
    rwa [nil_append] at this
  · refine hrec.total _ [] (records_empty f.types.size) hok ?_ fun q hq => hlt q.1 ?_
    · rwa [nil_append, map_fst_allSites]
    · rw [← map_fst_allSites]
      exact mem_map_of_mem hq

-- ======== availability

section Available

variable {b c : BlockId} {block : Block} {v : Var}

/-- A parameter of the function is supplied to every block. -/
theorem Func.not_misses_param (hv : v ∈ f.params.map (·.var)) : ¬f.Misses v b := by
  intro h
  induction h with
  | entry h => exact h hv
  | edge _ _ _ _ ih => exact ih

/-- What is not defined is supplied to no block. -/
theorem Func.mem_defs_of_not_misses (hb : f.Reachable b) (hv : ¬f.Misses v b) : v ∈ f.defs := by
  by_contra hno
  refine hv ?_
  clear hv
  induction hb with
  | entry => exact .entry fun hp => hno (mem_append_left _ hp)
  | edge _ ht ih =>
    obtain ⟨block, hblock, ht⟩ := exists_of_successor ht
    exact .edge ih hblock (fun hd => hno (mem_defs_of_block hblock hd)) ht

/-- The variables that a block defines are supplied exactly where it
dominates, but to the block itself. -/
theorem Func.dominates_iff_not_misses (hnd : f.defs.Nodup) (hblock : f.block? c = some block)
    (hv : v ∈ block.defs) (hne : c ≠ b) : f.Dominates c b ↔ ¬f.Misses v b := by
  constructor
  · intro hdom hm
    have hway : b = c ∨ ∃ k, f.Dodges c k b := by
      clear hdom hne
      induction hm with
      | entry =>
        by_cases hc : f.entry = c
        · exact .inl hc
        · exact .inr ⟨0, .entry hc⟩
      | @edge p t pblock _ hp hpv ht ih =>
        by_cases htc : t = c
        · exact .inl htc
        · rcases ih with rfl | ⟨k, hk⟩
          · rw [hblock] at hp
            exact absurd (some.inj hp ▸ hv) hpv
          · exact .inr ⟨k + 1, .back hk (successors_eq hp ▸ ht) htc⟩
    rcases hway with h | ⟨k, hk⟩
    · exact hne h.symm
    · exact hdom k hk
  · intro hm k hk
    refine hm ?_
    clear hm hne
    have hedge : ∀ {p t}, f.Misses v p → p ≠ c → t ∈ f.successors p → f.Misses v t := by
      intro p t hp hpc ht
      obtain ⟨pblock, hpb, ht⟩ := exists_of_successor ht
      exact .edge hp hpb (defs_disjoint hnd hblock hpb (Ne.symm hpc) hv) ht
    have hdodged : ∀ {p k}, f.Dodges c k p → p ≠ c := by
      intro p k hp
      cases hp with
      | entry h => exact h
      | forward _ _ _ h => exact h
      | back _ _ h => exact h
    induction hk with
    | entry _ => exact .entry (not_mem_params_of_block hnd hblock hv)
    | forward hp ht _ _ ih => exact hedge ih (hdodged hp) ht
    | back hp ht _ ih => exact hedge ih (hdodged hp) ht

theorem Func.dominates_entry : f.Dominates f.entry b := by
  intro k h
  induction h with
  | entry h => exact h rfl
  | forward _ _ _ _ ih => exact ih
  | back _ _ _ ih => exact ih

/-- A variable is found available at a position of a block that can be reached
if it is supplied to the block, is one of its parameters, or is defined there
before. -/
theorem available_iff (hf : WellFormed f) (hs : s.Records n f.allSites) (hb : f.Reachable b)
    (hblock : f.block? b = some block) {pos : Nat} : available s f.dominators v b pos = true ↔
      (¬f.Misses v b ∨ v ∈ block.params) ∨
        ∃ i < pos, ∃ y, block.code[i]? = some y ∧ y.def? = some v := by
  have hlt : b < f.blocks.size := Func.block_lt hblock
  have hmem : ∀ {j : Nat} {x : Instr} {block : Block}, block.code[j]? = some x →
      x.def? = some v → v ∈ block.defs := by
    intro j x block hx hd
    exact mem_append_right _ (mem_filterMap.2 ⟨x, mem_of_getElem? hx, hd⟩)
  -- a variable of another block is not defined in this one
  have hother : ∀ {c cblock}, f.block? c = some cblock → v ∈ cblock.defs → c ≠ b →
      (f.dominators.dominates c b = true ↔ (¬f.Misses v b ∨ v ∈ block.params) ∨
        ∃ i < pos, ∃ y, block.code[i]? = some y ∧ y.def? = some v) := by
    intro c cblock hc hv hne
    have hdis := defs_disjoint hf.nodup hc hblock hne hv
    rw [dominates_iff hf.numbered hb hlt, dominates_iff_not_misses hf.nodup hc hv hne]
    refine ⟨fun h => .inl (.inl h), ?_⟩
    rintro ((h | h) | ⟨i, -, y, hy, hd⟩)
    · exact h
    · exact absurd (mem_append_left _ h) hdis
    · exact absurd (hmem hy hd) hdis
  unfold available
  cases hsite : s.site? v with
  | none =>
    refine ⟨fun h => (by cases h), fun h => ?_⟩
    have hno : v ∉ f.defs := by
      intro hv
      rw [← map_fst_allSites, ← hs.isSome, hsite] at hv
      cases hv
    rcases h with (h | h) | ⟨i, -, y, hy, hd⟩
    · exact absurd (mem_defs_of_not_misses hb h) hno
    · exact absurd (mem_defs_of_block hblock (mem_append_left _ h)) hno
    · exact absurd (mem_defs_of_block hblock (hmem hy hd)) hno
  | some site =>
    dsimp only
    rcases (mem_allSites hf.id).1 ((hs.site v site).1 hsite) with
      ⟨hv, rfl⟩ | ⟨c, cblock, hc, ⟨hv, rfl⟩ | ⟨j, x, hx, hd, rfl⟩⟩
    · have htrue : ¬f.Misses v b := not_misses_param hv
      refine ⟨fun _ => .inl (.inl htrue), fun _ => ?_⟩
      dsimp only
      split
      · rfl
      · exact (dominates_iff hf.numbered hb hlt).2 dominates_entry
    · dsimp only
      by_cases hcb : c = b
      · subst hcb
        rw [hblock] at hc
        rw [if_pos rfl, some.inj hc]
        exact ⟨fun _ => .inl (.inr hv), fun _ => rfl⟩
      · rw [if_neg hcb]
        exact hother hc (mem_append_left _ hv) hcb
    · have hv' := hmem hx hd
      dsimp only
      by_cases hcb : c = b
      · subst hcb
        rw [hblock] at hc
        cases hc
        rw [if_pos rfl, decide_eq_true_eq]
        refine ⟨fun hlt => .inr ⟨j, hlt, x, hx, hd⟩, ?_⟩
        rintro ((h | h) | ⟨i, hi, y, hy, hd'⟩)
        · exact absurd (misses_of_mem_defs hf.nodup hb hblock hv') h
        · -- a parameter of the block is not defined in it once more
          exact absurd rfl ((nodup_append.1 (nodup_block hf.nodup hblock)).2.2 v h v
            (mem_filterMap.2 ⟨x, mem_of_getElem? hx, hd⟩))
        · have hsite' := (hs.site v ⟨c, some i⟩).2
            ((mem_allSites hf.id).2 (.inr ⟨c, block, hblock, .inr ⟨i, y, hy, hd', rfl⟩⟩))
          rw [hsite] at hsite'
          have : j = i := by simpa using hsite'
          omega
      · rw [if_neg hcb]
        exact hother hc hv' hcb

end Available

-- ======== check

/-- The check of an edge. -/
theorem checkEdge_ok_iff {b : Block} {t : BlockId} :
    checkEdge f b t = .ok () ↔ ∃ target, f.block? t = some target ∧ EdgeFits b target := by
  unfold checkEdge EdgeFits
  cases ht : f.block? t with
  | none => simp
  | some target =>
    simp only [some.injEq, exists_eq_left']
    cases b.term with
    | none => simp
    | some term =>
      cases term with
      | jump _ args => simp
      | _ => simp

theorem checkDefined_ok_iff (hs : s.Records n f.allSites) {vs : List Var}
    {e : Var → Violation} : checkDefined s vs e = .ok () ↔ ∀ v ∈ vs, v ∈ f.defs := by
  unfold checkDefined
  rw [forM_ok_iff]
  refine forall₂_congr fun v _ => ?_
  rw [← map_fst_allSites, ← hs.isSome, ite_ok_iff]

/-- The check of a block: what it reads is defined and its edges fit. -/
theorem checkBlock_ok_iff (hs : s.Records n f.allSites) {b : Block} :
    checkBlock f s b = .ok () ↔ (∀ v ∈ b.reads, v ∈ f.defs) ∧
      ∀ t ∈ b.successors, ∃ target, f.block? t = some target ∧ EdgeFits b target := by
  unfold checkBlock
  rw [check_bind_ok_iff, check_bind_ok_iff, forM_ok_iff, forM_ok_iff, ← and_assoc]
  refine and_congr ?_ (forall₂_congr fun t _ => checkEdge_ok_iff)
  simp only [checkDefined_ok_iff hs, Block.reads, List.forall_mem_append, List.mem_flatMap]
  refine and_congr_left fun _ => ⟨?_, fun h x hx v hv => h v ⟨x, hx, hv⟩⟩
  rintro h v ⟨x, hx, hv⟩
  exact h x hx v hv

/-- The check of uses: nothing is missed on the way to a reachable block. -/
theorem checkUses_ok_iff (hf : WellFormed f) (hs : s.Records n f.allSites) {block : Block}
    (hblock : f.block? b = some block) : checkUses s f.dominators block = .ok () ↔
      (f.Reachable b → Supported block fun v => ¬f.Misses v b) := by
  have hlt : b < f.blocks.size := Func.block_lt hblock
  unfold checkUses
  rw [hf.id b block hblock]
  by_cases hb : f.Reachable b
  · rw [if_pos ((isReachable_iff hf.numbered).2 ⟨hb, hlt⟩), check_bind_ok_iff, forM_ok_iff]
    have havail : ∀ {vs : List Var} {pos : Nat} {e : Var → Violation},
        checkAvailable s f.dominators vs b pos e = .ok () ↔
          ∀ v ∈ vs, (¬f.Misses v b ∨ v ∈ block.params) ∨
            ∃ i < pos, ∃ y, block.code[i]? = some y ∧ y.def? = some v := by
      intro vs pos e
      unfold checkAvailable
      rw [forM_ok_iff]
      refine forall₂_congr fun v _ => ?_
      rw [← available_iff hf hs hb hblock, ite_ok_iff]
    have hlast : ∀ v, (∃ i < block.code.length, ∃ y, block.code[i]? = some y ∧
        y.def? = some v) ↔ v ∈ block.code.filterMap Instr.def? := by
      intro v
      rw [List.mem_filterMap]
      constructor
      · rintro ⟨i, -, y, hy, hd⟩
        exact ⟨y, mem_of_getElem? hy, hd⟩
      · rintro ⟨y, hy, hd⟩
        obtain ⟨i, hi⟩ := mem_iff_getElem?.1 hy
        exact ⟨i, (List.getElem?_eq_some_iff.1 hi).1, y, hi, hd⟩
    rw [havail, forall_prop_of_true hb, Supported, supports_iff]
    simp only [Prod.forall, List.mem_zipIdx_iff_getElem?, havail, hlast]
    exact ⟨fun h => ⟨fun j x hx => h.1 x j hx, h.2⟩, fun h => ⟨fun x j hx => h.1 j x hx, h.2⟩⟩
  · rw [if_neg fun h => hb ((isReachable_iff hf.numbered).1 h).1]
    exact ⟨fun _ h => absurd h hb, fun _ => rfl⟩

/-- A function passes the check at a stage exactly if it is valid there. -/
theorem check_ok_iff : f.check stage = .ok () ↔ Valid stage f := by
  have hcheck : f.check stage = .ok () ↔ f.violation stage = .ok () := by
    unfold check
    split
    · next h => simp [h]
    · next h => simp [h]
  obtain ⟨hsound, htotal⟩ := sites_ok f stage
  rw [hcheck]
  unfold violation
  dsimp only
  constructor
  · intro h
    by_cases hentry : (f.block? f.entry).isNone = true
    · rw [if_pos hentry] at h
      cases h
    rw [if_neg hentry] at h
    obtain ⟨s, hs, h⟩ := bind_ok h
    by_cases hfree : (!(f.preds f.entry).isEmpty) = true
    · rw [if_pos hfree] at h
      cases h
    rw [if_neg hfree] at h
    obtain ⟨hblocks, huses⟩ := check_bind_ok_iff.1 h
    obtain ⟨hrec, hall⟩ := hsound s hs
    have hblocks' := fun b hb => (checkBlock_ok_iff hrec).1 (forM_ok hblocks b hb)
    have hwf : WellFormed f := by
      refine ⟨?_, by simpa using hfree, fun i b hb => (hall i b hb).id, ?_, fun v hv => ?_,
        fun b hb => ?_, fun b hb => (hblocks' b (mem_toList_iff.2 hb)).2⟩
      · exact ne_none_iff_exists'.1 (by simpa using hentry)
      · rw [← map_fst_allSites]
        exact hrec.nodup
      · rw [← map_fst_allSites] at hv
        obtain ⟨p, hp, rfl⟩ := mem_map.1 hv
        exact hrec.bound p hp
      · obtain ⟨i, hi⟩ := mem_iff_getElem?.1 hb
        exact (hall i b hi).term
    refine ⟨hwf, fun b hb x hx => ?_,
      fun b hb => (hblocks' b (mem_toList_iff.2 hb)).1, fun b block hb hblock => ?_⟩
    · obtain ⟨i, hi⟩ := mem_iff_getElem?.1 hb
      exact (hall i b hi).code x hx
    · have hmem' := mem_toList_iff.2 (mem_of_getElem? hblock)
      exact (checkUses_ok_iff hwf hrec hblock).1 (forM_ok huses block hmem') hb
  · intro h
    obtain ⟨eblock, heblock⟩ := h.entry
    have hrecorded : ∀ i b, f.block? i = some b → BlockRecorded stage i b := fun i b hb =>
      ⟨h.id i b hb, h.staged b (mem_of_getElem? hb), h.term b (mem_of_getElem? hb)⟩
    obtain ⟨s, hs⟩ := htotal h.nodup h.bound hrecorded
    obtain ⟨hrec, -⟩ := hsound s hs
    rw [heblock, if_neg (by simp), hs, h.entryFree]
    refine check_bind_ok_iff.2 ⟨forM_ok_iff.2 fun b hb => ?_, forM_ok_iff.2 fun b hb => ?_⟩
    · have hb' := mem_toList_iff.1 hb
      exact (checkBlock_ok_iff hrec).2 ⟨h.defined b hb', h.edge b hb'⟩
    · obtain ⟨i, hi⟩ := mem_iff_getElem?.1 (mem_toList_iff.1 hb)
      exact (checkUses_ok_iff h.toWellFormed hrec hi).2 fun hreach => h.supported i b hreach hi

end RefCount.Ir
