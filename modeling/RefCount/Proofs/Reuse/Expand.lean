/-
Expanding one pair. A pair is replaced by a test of sharing and two or three
blocks behind it. What was there at the reset is there at the end of the test's
block, and so in the blocks behind it; the token is gone, which only its reuse
read. Without a block where the two ways meet again the value that is rebuilt is
gone too, behind the way that updates in place: it is used by the terminator only,
and there the updated value stands for it.
-/
import Mathlib
import RefCount.Proofs.Outcome
import RefCount.Proofs.Reuse.InPlace
import RefCount.Proofs.Reuse.Site

namespace RefCount.Reuse

open Ir RefCount.Count List Option Array Func

-- ======== blocks

theorem successors_substitute (term : Term) (m : Var → Var) :
    (term.substitute m).successors = term.successors := by
  cases term with
  | _ => rfl

theorem uses_substitute (term : Term) (m : Var → Var) :
    (term.substitute m).uses = term.uses.map m := by
  cases term with
  | _ => rfl

/-- Other arguments of the same number fit an edge. -/
theorem edgeFits_substitute {b b' target : Block} {term : Term} {m : Var → Var}
    (hb : b.term = some term) (hb' : b'.term = some (term.substitute m))
    (h : EdgeFits b target) : EdgeFits b' target := by
  unfold EdgeFits at h ⊢
  rw [hb] at h
  rw [hb']
  cases term with
  | jump o args => exact (length_map m).trans h
  | _ => exact h

/-- The block that tests whether a value is shared. -/
def testBlock (block : Block) (claims : Claims) (code : List Instr) (shared v : Var) (n : Nat) :
    Block :=
  { block with
    code := claims.strip code ++ [.isShared shared v]
    term := some (.branch shared (some (n + 1)) (some n)) }

/-- The block that updates a value in place. -/
def updateBlock (n : Nat) (update : List Instr) (term : Term) : Block := ⟨n, [], update, some term⟩

/-- The block that builds a value anew. -/
def buildBlock (n : Nat) (claims : Claims) (v : Var) (r : Rebuild) (built : Var) (term : Term) :
    Block :=
  ⟨n + 1, [], claims.vars.map Instr.inc ++ [.dec v] ++ [r.construct built], some term⟩

/-- The blocks behind the test if the two ways do not meet. -/
def splitBlocks (n : Nat) (update : List Instr) (claims : Claims) (v : Var) (r : Rebuild)
    (term : Term) : List Block :=
  [updateBlock n update (term.substitute (replaceVar r.dst v)),
    buildBlock n claims v r r.dst term]

/-- The blocks behind the test if the two ways meet. -/
def joinBlocks (n : Nat) (update : List Instr) (claims : Claims) (v : Var) (r : Rebuild)
    (built : Var) (behind : List Instr) (term : Option Term) : List Block :=
  [updateBlock n update (.jump (some (n + 2)) [v]),
    buildBlock n claims v r built (.jump (some (n + 2)) [built]),
    ⟨n + 2, [r.dst], behind, term⟩]

/-- A function with a block changed and blocks and variables added. -/
structure Rebuilt (f g : Func) (b : BlockId) (block' : Block) (new : List Block)
    (more : List TypeId) : Prop where
  params : g.params = f.params
  entry : g.entry = f.entry
  types : g.types = f.types ++ more.toArray
  blocks : g.blocks.toList = f.blocks.toList.set b block' ++ new

namespace Rebuilt

variable {f g : Func} {b : BlockId} {n : Nat} {block' : Block} {new : List Block}
  {more : List TypeId}

section

variable (h : Rebuilt f g b block' new more)
include h

/-- A new block is changed. -/
theorem modifyBlock (hn : f.blocks.size = n) (i : Nat)
    (k : Block → Block) : Rebuilt f (g.modifyBlock (n + i) k) b block' (new.modify i k) more where
  params := h.params
  entry := h.entry
  types := h.types
  blocks := by
    unfold Func.modifyBlock
    dsimp only
    rw [toList_modify, h.blocks]
    have hlength : (f.blocks.toList.set b block').length = n := by simp [hn]
    refine ext_getElem? fun j => ?_
    rw [List.getElem?_modify, List.getElem?_append, List.getElem?_append, hlength,
      List.getElem?_modify]
    by_cases hj : j < n
    · have hne : n + i ≠ j := by omega
      simp [hj, hne]
    · have hiff : n + i = j ↔ i = j - n := by omega
      simp [hj, hiff]

/-- A variable is added. -/
theorem newVar (t : TypeId) :
    Rebuilt f (g.newVar t).2 b block' new (more ++ [t]) where
  params := h.params
  entry := h.entry
  types := by
    unfold Func.newVar
    dsimp only
    rw [h.types]
    simp
  blocks := h.blocks

theorem size_eq :
    g.blocks.size = f.blocks.size + new.length := by
  rw [← Array.length_toList, h.blocks]
  simp

/-- A block is added. -/
theorem newBlock :
    Rebuilt f g.newBlock.2 b block' (new ++ [⟨f.blocks.size + new.length, [], [], none⟩]) more where
  params := h.params
  entry := h.entry
  types := h.types
  blocks := by
    unfold Func.newBlock
    dsimp only
    rw [Array.toList_push, h.size_eq, h.blocks, List.append_assoc]

theorem typesSize_eq :
    g.types.size = f.types.size + more.length := by
  rw [h.types]
  simp

end

end Rebuilt

namespace PairSite

variable {pool : Pool} {cls : Classes} {f : Func} {b : BlockId} {block : Block} {reset : ResetAt}
  {reuse : ReuseAt} {u : Var} {claims : Claims}
variable {f₁ f₂ g : Func} {update code : List Instr} {more : List TypeId} {n t : Nat} {term : Term}
  {built shared v : Var}

/-- The block with the test of a pair. -/
abbrev testFor (f : Func) (block : Block) (claims : Claims) (reset : ResetAt) (reuse : ReuseAt) :
    Block :=
  testBlock block claims (reset.before ++ reuse.before) f.types.size reset.var f.blocks.size

/-- The function with the test, and two blocks behind it that are still
empty. -/
def tested (f : Func) (b : BlockId) (claims : Claims) (code : List Instr) (v : Var) : Func :=
  (f.newBlock.2.newBlock.2.newVar .bool).2.modifyBlock b fun block => { block with
    code := claims.strip code ++ [.isShared f.types.size v]
    term := some (.branch f.types.size (some (f.blocks.size + 1)) (some f.blocks.size)) }

/-- The function with the code of the two blocks. -/
def filled (n : Nat) (update : List Instr) (claims : Claims) (v : Var) (f : Func) : Func :=
  withCode (withCode f n update) (n + 1) (claims.vars.map Instr.inc ++ [.dec v])

/-- The end of the expansion: how the two blocks go on. -/
def joined (n : Nat) (block : Block) (claims : Claims) (v : Var) (reuse : ReuseAt)
    (stats : ExpandStats) (f : Func) : Except Fault Expanded :=
  if reuse.behind.isEmpty && !usedOutside f reuse.rebuild.dst block.id then
    match block.term with
    | none => .error .terminator
    | some term =>
      .ok ⟨(f.modifyBlock (n + 1) fun s => { s with
          code := claims.vars.map Instr.inc ++ [.dec v] ++
            [reuse.rebuild.construct reuse.rebuild.dst]
          term := some term }).modifyBlock n fun s =>
        { s with term := some (term.substitute (replaceVar reuse.rebuild.dst v)) },
        stats, [block.id]⟩
  else
    match f.type? reuse.rebuild.dst with
    | none => .error .variable
    | some t =>
      let m := (f.newVar t).2.newBlock.1
      .ok ⟨(((f.newVar t).2.newBlock.2.modifyBlock m fun s => { s with
          params := [reuse.rebuild.dst], code := reuse.behind, term := block.term }).modifyBlock
        (n + 1) fun s => { s with
          code := claims.vars.map Instr.inc ++ [.dec v] ++
            [reuse.rebuild.construct (f.newVar t).1]
          term := some (.jump (some m) [(f.newVar t).1]) }).modifyBlock n fun s =>
        { s with term := some (.jump (some m) [v]) }, stats, [block.id, m]⟩

/-- Expansion, step by step. -/
theorem expandPair_eq (old : Int) : expandPair pool cls f b block reset reuse old =
      let claims := claimsIn reset.var reuse.before [] reset.before
      let updated := updateInPlace pool cls
        (tested f b claims (reset.before ++ reuse.before) reset.var) claims reset.var old
        reuse.rebuild
      joined f.blocks.size block claims reset.var reuse ⟨1, 0, claims.length, updated.2.2⟩
        (filled f.blocks.size updated.1 claims reset.var updated.2.1) := by
  have hsize : f.newBlock.2.newBlock.1 = f.blocks.size + 1 := by simp [Func.newBlock]
  unfold expandPair joined filled tested
  dsimp only
  rw [hsize]
  rfl

theorem tested_rebuilt (claims : Claims) (h : f.block? b = some block) (code : List Instr)
    (v : Var) :
    Rebuilt f (tested f b claims code v) b
      (testBlock block claims code f.types.size v f.blocks.size)
      [⟨f.blocks.size, [], [], none⟩, ⟨f.blocks.size + 1, [], [], none⟩] [.bool] where
  params := rfl
  entry := rfl
  types := by
    unfold tested
    simp [Func.newBlock, Func.newVar, Func.modifyBlock]
  blocks := by
    have hlt := (Array.getElem?_eq_some_iff.1 h).1
    have hget : (f.newBlock.2.newBlock.2.newVar .bool).2.block? b = some block := by
      simp only [Func.newBlock, Func.newVar, block?]
      rw [getElem?_push_lt (by simp; omega), getElem_push_lt hlt]
      exact Array.getElem?_eq_some_iff.1 h |>.2 ▸ rfl
    unfold tested
    rw [Replaces.toList_modifyBlock hget]
    simp only [Func.newBlock, Func.newVar, toList_push, size_push]
    rw [List.append_assoc, set_append_left _ _ (by simpa using hlt)]
    rfl

/-- A pair is expanded into a test and the two blocks behind it, with a block
for the rest if there is one. -/
theorem expandPair_ok (h : PairSite f b block reset reuse) (hf : Valid .counted f) (old : Int)
    (hclaims : claimsIn reset.var reuse.before [] reset.before = claims) :
    ∃ e f₁ f₂ update more, expandPair pool cls f b block reset reuse old = .ok e ∧
      Updates f₁ reset.var reuse.rebuild.args update f₂ more ∧
      f₁.types.size = f.types.size + 1 ∧ (e.stats.expanded = 1 ∧ e.stats.fallback = 0) ∧
      ((∃ term, block.term = some term ∧ reuse.behind = [] ∧
          (∀ c x, c ≠ b → f.block? c = some x → reuse.rebuild.dst ∉ x.reads) ∧ e.blocks = [b] ∧
          Rebuilt f e.func b (testFor f block claims reset reuse)
            (splitBlocks f.blocks.size update claims reset.var reuse.rebuild term)
            (.bool :: more)) ∨ ∃ t, e.blocks = [b, f.blocks.size + 2] ∧ Rebuilt f e.func b
          (testFor f block claims reset reuse)
          (joinBlocks f.blocks.size update claims reset.var reuse.rebuild
            (f.types.size + 1 + more.length) reuse.behind block.term)
          (.bool :: (more ++ [t]))) := by
  have hid : block.id = b := hf.id b block h.here
  obtain ⟨term, hterm⟩ := isSome_iff_exists.1 (hf.term block h.mem)
  have htested := tested_rebuilt claims h.here (reset.before ++ reuse.before) reset.var
  rw [expandPair_eq]
  dsimp only
  rw [hclaims]
  generalize htestedDef : tested f b claims (reset.before ++ reuse.before) reset.var = f₁ at htested ⊢
  obtain ⟨more, hupdates⟩ := updateInPlace_updates pool cls f₁ claims reset.var old reuse.rebuild
  generalize updateInPlace pool cls f₁ claims reset.var old reuse.rebuild = updated at hupdates ⊢
  obtain ⟨update, f₂, selfSets⟩ := updated
  dsimp only at hupdates ⊢
  have hf₂ : Rebuilt f f₂ b (testFor f block claims reset reuse)
      [⟨f.blocks.size, [], [], none⟩, ⟨f.blocks.size + 1, [], [], none⟩] (.bool :: more) := by
    rw [hupdates.func]
    refine ⟨htested.params, htested.entry, ?_, htested.blocks⟩
    dsimp only
    rw [htested.types]
    simp
  have hfilled : Rebuilt f (filled f.blocks.size update claims reset.var f₂) b
      (testFor f block claims reset reuse)
      [⟨f.blocks.size, [], update, none⟩, ⟨f.blocks.size + 1, [],
        claims.vars.map Instr.inc ++ [.dec reset.var], none⟩] (.bool :: more) :=
    (hf₂.modifyBlock rfl 0 _).modifyBlock rfl 1 _
  generalize filled f.blocks.size update claims reset.var f₂ = f₃ at hfilled ⊢
  have hsize : f₁.types.size = f.types.size + 1 := htested.typesSize_eq
  unfold joined
  by_cases hjoin : (reuse.behind.isEmpty && !usedOutside f₃ reuse.rebuild.dst block.id) = true
  · rw [if_pos hjoin, hterm]
    rw [Bool.and_eq_true, List.isEmpty_iff, Bool.not_eq_true'] at hjoin
    refine ⟨_, f₁, f₂, update, more, rfl, hupdates, hsize, ⟨rfl, rfl⟩,
      .inl ⟨term, rfl, hjoin.1, fun c x hne hc hread => ?_, congrArg (fun i => [i]) hid, ?_⟩⟩
    · have hx : x ∈ f₃.blocks := by
        rw [← mem_toList_iff, hfilled.blocks]
        refine mem_append_left _ (mem_of_getElem? (i := c) ?_)
        rw [getElem?_set_ne (Ne.symm hne), getElem?_toList]
        exact hc
      have hunused := any_eq_false'.1 hjoin.2 x hx
      rw [Bool.and_eq_true, not_and, Bool.or_eq_true, not_or] at hunused
      have hxid : decide (x.id ≠ block.id) = true := by
        rw [decide_eq_true_eq, hf.id c x hc, hid]
        exact hne
      obtain ⟨hlast, hcode⟩ := hunused hxid
      rcases mem_append.1 hread with hread | hread
      · obtain ⟨y, hy, hread⟩ := mem_flatMap.1 hread
        exact hcode (any_eq_true.2 ⟨y, hy, contains_iff_mem.2 hread⟩)
      · exact hlast (contains_iff_mem.2 hread)
    · exact (hfilled.modifyBlock rfl 1 _).modifyBlock rfl 0 _
  · rw [if_neg hjoin]
    have hdst : reuse.rebuild.dst < f₃.types.size := by
      rw [hfilled.typesSize_eq]
      refine (hf.bound _ (mem_defs_of_block h.here ?_)).trans_le (Nat.le_add_right _ _)
      rw [h.defs_eq]
      simp
    obtain ⟨t, ht⟩ : ∃ t, f₃.type? reuse.rebuild.dst = some t := ⟨_, getElem?_eq_getElem hdst⟩
    rw [ht]
    dsimp only
    have hmerge : (f₃.newVar t).2.newBlock.1 = f.blocks.size + 2 := hfilled.size_eq
    have hbuilt : (f₃.newVar t).1 = f.types.size + 1 + more.length := by
      have := hfilled.typesSize_eq
      rw [length_cons] at this
      unfold Func.newVar
      dsimp only
      rw [this, add_assoc, add_comm 1]
    rw [hmerge, hbuilt]
    refine ⟨_, f₁, f₂, update, more, rfl, hupdates, hsize, ⟨rfl, rfl⟩,
      .inr ⟨t, congrArg (fun i => [i, f.blocks.size + 2]) hid, ?_⟩⟩
    exact (((hfilled.newVar t).newBlock.modifyBlock rfl 2 _).modifyBlock rfl 1 _).modifyBlock rfl 0 _

-- ----------------------------------------------------------- what they read

/-- A block that takes the place of a part of another: it reads what that does
but for the token, and variables of its own. -/
structure Part (f : Func) (block x : Block) (reset : ResetAt) (reuse : ReuseAt) : Prop where
  nested : opened? [] x.code = some []
  tokens : ∀ token v, .reset token v ∈ x.code → .reset token v ∈ block.code
  plain : ∀ u ∈ plainReads x, u ∈ plainReads block ∨ f.types.size ≤ u
  reads : ∀ u ∈ x.reads,
    (u ∈ (reset.before ++ reuse.before ++ reuse.behind).flatMap Instr.uses ∨
      u ∈ plainReads block) ∨ u ∈ x.defs

/-- A block without tokens. -/
theorem part_of_plain {x : Block} (hplain : ∀ y ∈ x.code, isPlain y = true)
    (hreads : ∀ u ∈ x.reads, u ∈ plainReads block ∨ u ∈ x.defs ∧ f.types.size ≤ u) :
    Part f block x reset reuse where
  nested := opened?_of_isPlain hplain
  tokens _ _ hv := absurd (hplain _ hv) Bool.false_ne_true
  plain u hu := (hreads u (plainReads_subset x hu)).imp_right And.right
  reads u hu := (hreads u hu).imp .inr And.left

/-- The code of the block is of the pair's parts, or plain. -/
theorem part_of_code (h : PairSite f b block reset reuse) {x : Block}
    (hnested : opened? [] x.code = some [])
    (hcode : ∀ y ∈ x.code, y ∈ reset.before ++ reuse.before ++ reuse.behind ∨
      isPlain y = true ∧ ∀ u ∈ y.uses, u ∈ plainReads block)
    (hlast : ∀ u ∈ x.termUses, u ∈ plainReads block ∨ u ∈ x.defs ∧ f.types.size ≤ u) :
    Part f block x reset reuse := by
  refine ⟨hnested, fun token v hv => ?_, fun u hu => ?_, fun u hu => ?_⟩
  · rcases hcode _ hv with hv | ⟨hv, -⟩
    · exact h.mem_code hv
    · cases hv
  · rcases mem_append.1 hu with hu | hu
    · obtain ⟨y, hy, hu⟩ := mem_flatMap.1 hu
      rcases hcode y hy with hy | ⟨-, hplain⟩
      · exact .inl (mem_append_left _ (mem_flatMap.2 ⟨y, h.mem_code hy, hu⟩))
      · exact .inl (hplain u (plainUses_subset hu))
    · exact (hlast u hu).imp_right And.right
  · rcases mem_append.1 hu with hu | hu
    · obtain ⟨y, hy, hu⟩ := mem_flatMap.1 hu
      rcases hcode y hy with hy | ⟨-, hplain⟩
      · exact .inl (.inl (mem_flatMap.2 ⟨y, hy, hu⟩))
      · exact .inl (.inr (hplain u hu))
    · exact (hlast u hu).imp .inr And.left

/-- The block with the test is a part. -/
theorem part_testBlock (h : PairSite f b block reset reuse) :
    Part f block (testFor f block claims reset reuse) reset reuse := by
  refine h.part_of_code ?_ (fun y hy => ?_) fun u hu => ?_
  · unfold testFor testBlock
    dsimp only
    rw [opened?_append, opened?_strip, opened?_append, opened?_of_isPlain h.plain,
      bind_some, h.between]
    rfl
  · rcases mem_append.1 hy with hy | hy
    · exact .inl (mem_append_left _ ((strip_thins _ _).subset hy))
    · rw [mem_singleton.1 hy]
      exact .inr ⟨rfl, fun u hu => mem_singleton.1 hu ▸ h.var_plain⟩
  · rw [mem_singleton.1 hu]
    refine .inr ⟨mem_append_right _ (mem_filterMap.2
      ⟨.isShared f.types.size reset.var, ?_, rfl⟩), le_rfl⟩
    simp [testFor, testBlock]

/-- So is the block that updates in place. -/
theorem part_updateBlock (h : PairSite f b block reset reuse)
    (hupdates : Updates f₁ reset.var reuse.rebuild.args update f₂ more)
    (hsize : f₁.types.size = f.types.size + 1) (hterm : ∀ u ∈ term.uses, u ∈ plainReads block) :
    Part f block (updateBlock n update term) reset reuse := by
  refine part_of_plain hupdates.plain fun u hu => ?_
  rcases mem_append.1 hu with hu | hu
  · have hread := hupdates.supports.mem_of_read (v := u) (by rwa [append_nil])
    rcases hread with (rfl | hu) | hu
    · exact .inl h.var_plain
    · exact .inl (h.arg_plain hu)
    · refine .inr ⟨mem_append_right _ hu, ?_⟩
      rw [hupdates.defs, List.mem_range'_1, hsize] at hu
      exact (Nat.le_succ _).trans hu.1
  · exact .inl (hterm u hu)

/-- What is claimed is defined and counted up before the test. -/
theorem mem_claims_vars (hclaims : claimsIn reset.var reuse.before [] reset.before = claims)
    (hu : u ∈ claims.vars) :
    u ∈ reset.before.filterMap Instr.def? ∧ .inc u ∈ reset.before ++ reuse.before := by
  obtain ⟨p, hp, rfl⟩ := mem_vars.1 hu
  exact mem_claimsIn (hclaims ▸ hp)

/-- So is the block that builds an object anew. -/
theorem part_buildBlock (h : PairSite f b block reset reuse)
    (hclaims : claimsIn reset.var reuse.before [] reset.before = claims)
    (hterm : ∀ u ∈ term.uses, u ∈ plainReads block ∨ u = built ∧ f.types.size ≤ u) :
    Part f block (buildBlock n claims reset.var reuse.rebuild built term) reset reuse := by
  refine part_of_plain (fun y hy => ?_) fun u hu => ?_
  · simp only [buildBlock, List.mem_append, List.mem_map, List.mem_singleton] at hy
    rcases hy with (⟨u, -, rfl⟩ | rfl) | rfl
    · rfl
    · rfl
    · rfl
  · rcases mem_append.1 hu with hu | hu
    · left
      obtain ⟨y, hy, hu⟩ := mem_flatMap.1 hu
      simp only [buildBlock, List.mem_append, List.mem_map, List.mem_singleton] at hy
      rcases hy with (⟨w, hw, rfl⟩ | rfl) | rfl
      · rw [mem_singleton.1 hu]
        have hinc := (mem_claims_vars hclaims hw).2
        exact mem_append_left _ (mem_flatMap.2
          ⟨_, h.mem_code (mem_append_left _ hinc), mem_singleton_self w⟩)
      · rw [mem_singleton.1 hu]
        exact h.var_plain
      · exact h.arg_plain hu
    · refine (hterm u hu).imp_right ?_
      rintro ⟨rfl, hle⟩
      refine ⟨mem_append_right _ (mem_filterMap.2 ⟨reuse.rebuild.construct u, ?_, rfl⟩), hle⟩
      simp [buildBlock]

/-- So is the block for the rest. -/
theorem part_merge (h : PairSite f b block reset reuse) :
    Part f block ⟨n, [reuse.rebuild.dst], reuse.behind, block.term⟩ reset reuse :=
  h.part_of_code h.behind (fun _ hy => .inl (mem_append_right _ hy))
    fun _ hu => .inl (mem_append_right _ hu)

-- -------------------------------------------------------- what they rest on

theorem defs_testBlock : (testBlock block claims code shared v n).defs =
      block.params ++ code.filterMap Instr.def? ++ [shared] := by
  unfold Block.defs testBlock
  dsimp only
  rw [List.filterMap_append, (strip_thins claims code).filterMap_def, List.append_assoc]
  rfl

section Supported

variable {gone E : Var → Prop} {n : Nat} {term : Term}

/-- What is there in the block with the test and in those behind it. -/
theorem supported_testBlock (h : PairSite f b block reset reuse) (hf : Expanding f)
    (hclaims : claimsIn reset.var reuse.before [] reset.before = claims)
    (hgone : ∀ u, gone u → u ∈ block.defs) (hb : f.Reachable b)
    (hE : ∀ u, (¬f.Misses u b ∧ ¬gone u) ∨ u ∈ (testFor f block claims reset reuse).defs → E u) :
    Supported (testFor f block claims reset reuse) (fun u => ¬f.Misses u b ∧ ¬gone u) ∧
      E reset.var ∧ (∀ a ∈ reuse.rebuild.args, E a) ∧ (∀ u ∈ claims.vars, E u) ∧
      Supports (fun u => E u ∨ u = reuse.rebuild.dst) reuse.behind block.termUses := by
  obtain ⟨hparts, hvar, hargs, hbehind⟩ := h.supports hf.valid.toWellFormed hf.paired
    (hf.valid.supported b block hb h.here)
  have hmiss : ∀ u, ¬f.Misses u b → ¬f.Misses u b ∧ ¬gone u := fun u hu =>
    ⟨hu, fun hg => hu (misses_of_mem_defs hf.valid.nodup hb h.here (hgone u hg))⟩
  have hbefore : ∀ {u}, u ∈ reset.before.filterMap Instr.def? →
      u ∈ (reset.before ++ reuse.before).filterMap Instr.def? := by
    intro u hu
    rw [List.filterMap_append]
    exact mem_append_left _ hu
  have hend : ∀ {u}, ((¬f.Misses u b ∨ u ∈ block.params) ∨
      u ∈ (reset.before ++ reuse.before).filterMap Instr.def?) → E u := by
    rintro u ((hu | hu) | hu)
    · exact hE u (.inl (hmiss u hu))
    · refine hE u (.inr ?_)
      rw [defs_testBlock]
      exact mem_append_left _ (mem_append_left _ hu)
    · refine hE u (.inr ?_)
      rw [defs_testBlock]
      exact mem_append_left _ (mem_append_right _ hu)
  refine ⟨?_, hend (hvar.imp_right hbefore), fun a ha => hend (hargs a ha),
    fun u hu => hend (.inr (hbefore (mem_claims_vars hclaims hu).1)),
    hbehind.mono fun u => Or.imp_left hend⟩
  refine Supports.mono (supports_append.2 ⟨(strip_thins claims _).supports hparts, ?_, ?_⟩)
    fun u => Or.imp_left (hmiss u)
  · intro u hu
    rw [mem_singleton.1 hu, (strip_thins claims _).filterMap_def]
    exact hvar.imp_right hbefore
  · intro u hu
    rw [mem_singleton.1 hu]
    exact .inr rfl

/-- The block that updates in place has what it reads. -/
theorem supported_updateBlock {f₁ f₂ : Func} {update : List Instr} {more : List TypeId}
    (hupdates : Updates f₁ reset.var reuse.rebuild.args update f₂ more) (hvar : E reset.var)
    (hargs : ∀ a ∈ reuse.rebuild.args, E a) (hterm : ∀ u ∈ term.uses, E u) :
    Supported (updateBlock n update term) E := by
  refine supports_iff_last.2 ⟨hupdates.supports.mono ?_, fun u hu => .inl (.inl (hterm u hu))⟩
  rintro u (rfl | hu)
  · exact .inl hvar
  · exact .inl (hargs u hu)

theorem countsOf_claims (hv : E v) (hclaimed : ∀ u ∈ claims.vars, E u) :
    CountsOf E (claims.vars.map Instr.inc ++ [.dec v]) := by
  intro y hy
  rcases mem_append.1 hy with hy | hy
  · obtain ⟨u, hu, rfl⟩ := mem_map.1 hy
    exact ⟨u, hclaimed u hu, .inl rfl⟩
  · exact ⟨v, hv, .inr (mem_singleton.1 hy)⟩

/-- So has the block that builds anew. -/
theorem supported_buildBlock {built : Var} (hvar : E reset.var)
    (hargs : ∀ a ∈ reuse.rebuild.args, E a) (hclaimed : ∀ u ∈ claims.vars, E u)
    (hterm : ∀ u ∈ term.uses, E u ∨ u = built) :
    Supported (buildBlock n claims reset.var reuse.rebuild built term) E := by
  refine supports_counts (countsOf_claims (.inl hvar) fun u hu => .inl (hclaimed u hu))
    ⟨fun a ha => .inl (hargs a ha), fun u hu => ?_⟩
  rcases hterm u hu with hu | rfl
  · exact .inl (.inl hu)
  · exact .inr rfl

end Supported

-- ------------------------------------------------------------ the function

theorem mem_successors_testBlock (ht : t ∈ (testBlock block claims code shared v n).successors) :
    t = n + 1 ∨ t = n := by
  have ht' : t ∈ (Term.branch shared (some (n + 1)) (some n)).successors := ht
  rw [Term.successors, mem_eraseDups] at ht'
  simpa [Term.targets] using ht'

section Assemble

variable {g : Func} {new : List Block} {more : List TypeId}

section

variable (h : PairSite f b block reset reuse)
include h

/-- The test and what is behind it take the place of a block. -/
theorem replaces_of_rebuilt (hf : WellFormed f)
    (hg : Rebuilt f g b (testFor f block claims reset reuse) new more)
    (hids : ∀ i x, new[i]? = some x → x.id = f.blocks.size + i) (hterm : ∀ x ∈ new, x.term.isSome)
    (hfirst : ∃ x y, new[0]? = some x ∧ x.params = [] ∧ new[1]? = some y ∧ y.params = [])
    (hedge : ∀ x ∈ new, ∀ t ∈ x.successors,
      (t ∈ block.successors ∧ ∀ target, EdgeFits block target → EdgeFits x target) ∨
      ∃ i target, t = f.blocks.size + i ∧ new[i]? = some target ∧ EdgeFits x target)
    (hdefs : ((testFor f block claims reset reuse).defs ++ new.flatMap Block.defs).Perm
        (kept block reset reuse ++ List.range' f.types.size more.length)) :
    Replaces f g b block (testFor f block claims reset reuse) new where
  params := hg.params
  entry := hg.entry
  types := ⟨more, hg.types⟩
  here := h.here
  blocks := hg.blocks
  id := rfl
  blockParams := rfl
  ids := hids
  term x hx := by
    rcases mem_cons.1 hx with rfl | hx
    · rfl
    · exact hterm x hx
  edge x hx t ht := by
    rcases mem_cons.1 hx with rfl | hx
    · obtain ⟨x, y, hx, hxparams, hy, hyparams⟩ := hfirst
      rcases mem_successors_testBlock ht with rfl | rfl
      · exact .inr ⟨1, y, rfl, hy, hyparams⟩
      · exact .inr ⟨0, x, rfl, hx, hxparams⟩
    · exact hedge x hx t ht
  nodup := by
    rw [hdefs.nodup_iff]
    refine nodup_append.2 ⟨h.nodup_kept hf, nodup_range', fun v hv w hw heq => ?_⟩
    have hlt := hf.bound v (mem_defs_of_block h.here (h.mem_defs_of_mem_kept hv))
    exact absurd hlt (not_lt.2 (heq ▸ (mem_range'_1.1 hw).1))
  bound v hv := by
    rcases mem_append.1 (hdefs.mem_iff.1 hv) with hv | hv
    · exact .inl (h.mem_defs_of_mem_kept hv)
    · have hrange := List.mem_range'_1.1 hv
      exact .inr ⟨hrange.1, by rw [hg.typesSize_eq]; exact hrange.2⟩

/-- The block with the test still uses a variable before it releases it. -/
theorem covered_testBlock {shared : Var}
    (hcovered : Covered u block.code) :
    Covered u (claims.strip (reset.before ++ reuse.before) ++ [.isShared shared reset.var]) := by
  rw [h.code] at hcovered
  have hreset : ¬Holds u (.reset reset.token reset.var) := fun hu =>
    hu.2.2 reset.token (by rw [List.mem_singleton.1 hu.1])
  have hparts := hcovered.erase hreset
  rw [← List.append_assoc] at hparts
  refine ((strip_thins claims _).covered hparts.left).append (covered_of_not_frees fun x hx => ?_)
  rw [mem_singleton.1 hx]
  rintro (hu | ⟨token, hu⟩)
  · cases hu
  · cases hu

/-- A function is one to expand on if the blocks behind the test are parts, hand
on what is not given up, and have what they read. -/
theorem expanding_of_parts (hf : Expanding f)
    (gone : Var → Prop) (hr : Replaces f g b block (testFor f block claims reset reuse) new)
    (hparts : ∀ x ∈ new, Part f block x reset reuse)
    (htoken : gone reset.token) (hgone : ∀ u, gone u → u = reset.token ∨
      (∃ x ∈ new, u ∈ x.defs) ∧ ∀ c x, c ≠ b → f.block? c = some x → u ∉ x.reads)
    (hkept : ∀ u ∈ kept block reset reuse,
      ∃ x ∈ testFor f block claims reset reuse :: new, u ∈ x.defs)
    (hhanded : ∀ x ∈ new, ∀ t ∈ x.successors, t < f.blocks.size →
      ∀ u ∈ kept block reset reuse, ¬gone u →
        u ∈ (testFor f block claims reset reuse).defs ∨ u ∈ x.defs) (hsupported : f.Reachable b →
      Supported (testFor f block claims reset reuse) (fun u => ¬f.Misses u b ∧ ¬gone u) ∧
      ∀ x ∈ new, Supported x fun u =>
        (¬f.Misses u b ∧ ¬gone u) ∨ u ∈ (testFor f block claims reset reuse).defs)
    (hloops : ∀ i x, new[i]? = some x → f.blocks.size + i ∉ x.successors) : Expanding g := by
  have hwell := hf.valid.toWellFormed
  have hlt := hr.lt
  have hall : ∀ x ∈ testFor f block claims reset reuse :: new, Part f block x reset reuse := by
    intro x hx
    rcases mem_cons.1 hx with rfl | hx
    · exact h.part_testBlock
    · exact hparts x hx
  have htest : ∀ t ∈ (testFor f block claims reset reuse).successors, f.blocks.size ≤ t := by
    intro t ht
    rcases mem_successors_testBlock ht with rfl | rfl
    · exact Nat.le_succ _
    · exact le_rfl
  refine ⟨?_, ?_, ?_⟩
  · refine hr.valid gone (fun c x hne hc u hu hg => ?_) (fun x hx t ht hlt' u hu hg => ?_)
      (fun hb => (hsupported hb).1) (fun hb => (hsupported hb).2) hf.valid
      (fun x _ y _ => checkStage_counted x.id y) (fun u hu hg => ?_) fun x hx u hu => ?_
    · rcases hgone u hg with rfl | ⟨-, hunread⟩
      · exact hf.paired.not_read_elsewhere hwell h.here h.reset_mem hne hc hu
      · exact hunread c x hne hc hu
    · rcases mem_cons.1 hx with rfl | hx
      · exact absurd hlt' (not_lt.2 (htest t ht))
      · exact hhanded x hx t ht hlt' u (h.mem_kept_of_mem_defs hu fun heq => hg (heq ▸ htoken)) hg
    · exact hkept u (h.mem_kept_of_mem_defs hu fun heq => hg (heq ▸ htoken))
    · rcases (hall x hx).reads u hu with hu | hu
      · by_cases hg : gone u
        · rcases hgone u hg with rfl | ⟨⟨y, hy, hu⟩, -⟩
          · exact absurd rfl (h.ne_token hwell hf.paired hu)
          · exact .inr ⟨y, .tail _ hy, hu⟩
        · exact .inl ⟨h.mem_defs_of_read hf.valid hu, hg⟩
      · exact .inr ⟨x, hx, hu⟩
  · exact paired_of_replaces hr hf.valid hf.paired (fun x hx => (hall x hx).nested)
      (fun x hx => (hall x hx).tokens) fun x hx => (hall x hx).plain
  · refine anchored_of_replaces hr hf.anchored hloops (fun hloop => ?_)
      fun u _ hcovered => h.covered_testBlock hcovered
    exact absurd hlt (not_lt.2 (htest b hloop))

end

end Assemble

theorem defs_updateBlock (hupdates : Updates f₁ reset.var reuse.rebuild.args update f₂ more)
    (hsize : f₁.types.size = f.types.size + 1) :
    (updateBlock n update term).defs = List.range' (f.types.size + 1) more.length := by
  rw [← hsize, ← hupdates.defs]
  rfl

theorem defs_buildBlock {r : Rebuild} : (buildBlock n claims v r built term).defs = [built] := by
  unfold Block.defs buildBlock
  dsimp only
  rw [List.filterMap_append,
    (countsOf_claims (E := fun _ => True) trivial fun _ _ => trivial).filterMap_def]
  rfl

/-- Expanding a pair at the end of a block. -/
theorem expanding_split (h : PairSite f b block reset reuse) (hf : Expanding f)
    (hclaims : claimsIn reset.var reuse.before [] reset.before = claims)
    (hupdates : Updates f₁ reset.var reuse.rebuild.args update f₂ more)
    (hsize : f₁.types.size = f.types.size + 1) (hterm : block.term = some term)
    (hbehind : reuse.behind = [])
    (hunread : ∀ c x, c ≠ b → f.block? c = some x → reuse.rebuild.dst ∉ x.reads)
    (hg : Rebuilt f g b (testFor f block claims reset reuse) (splitBlocks f.blocks.size update
      claims reset.var reuse.rebuild term) (.bool :: more)) :
    Expanding g ∧ Replaces f g b block (testFor f block claims reset reuse)
      (splitBlocks f.blocks.size update claims reset.var reuse.rebuild term) := by
  have hwell := hf.valid.toWellFormed
  have hkeptEq : kept block reset reuse = block.params ++
      (reset.before ++ reuse.before).filterMap Instr.def? ++ [reuse.rebuild.dst] := by
    rw [kept, hbehind]
    rfl
  have hsuccs : ∀ x ∈ splitBlocks f.blocks.size update claims reset.var reuse.rebuild term,
      ∀ t ∈ x.successors, t ∈ block.successors ∧
        ∀ target, EdgeFits block target → EdgeFits x target := by
    intro x hx t ht
    have hsucc : block.successors = term.successors := by
      rw [Block.successors, hterm]
      rfl
    rcases mem_cons.1 hx with rfl | hx
    · refine ⟨?_, fun target hfits => ?_⟩
      · rw [hsucc, ← successors_substitute term (replaceVar reuse.rebuild.dst reset.var)]
        exact ht
      · exact edgeFits_substitute hterm rfl hfits
    · rw [mem_singleton.1 hx] at ht ⊢
      refine ⟨hsucc ▸ ht, fun target hfits => ?_⟩
      rw [EdgeFits, hterm] at hfits
      exact hfits
  have hlast : ∀ u ∈ term.uses, u ∈ block.termUses := by
    intro u hu
    rw [Block.termUses, hterm]
    exact hu
  have hr := h.replaces_of_rebuilt hwell hg
    (fun i x hi => ?_) (fun x hx => ?_) ⟨_, _, rfl, rfl, rfl, rfl⟩
    (fun x hx t ht => .inl (hsuccs x hx t ht)) ?_
  · refine ⟨h.expanding_of_parts hf (fun u => u = reset.token ∨ u = reuse.rebuild.dst) hr
      (fun x hx => ?_) (.inl rfl) (fun u hu => hu.imp_right ?_) (fun u hu => ?_)
      (fun x hx t ht hlt u hu hg => .inl ?_) (fun hb => ?_) fun i x hi hloop => ?_, hr⟩
    · rcases mem_cons.1 hx with rfl | hx
      · refine h.part_updateBlock hupdates hsize fun u hu => ?_
        rw [uses_substitute] at hu
        obtain ⟨w, hw, rfl⟩ := mem_map.1 hu
        unfold replaceVar
        split
        · exact h.var_plain
        · exact mem_append_right _ (hlast w hw)
      · rw [mem_singleton.1 hx]
        exact h.part_buildBlock hclaims fun u hu => .inl (mem_append_right _ (hlast u hu))
    · rintro rfl
      exact ⟨⟨_, .tail _ (mem_singleton_self _), by
        rw [defs_buildBlock]
        exact mem_singleton_self _⟩, hunread⟩
    · rw [hkeptEq] at hu
      rcases mem_append.1 hu with hu | hu
      · refine ⟨_, .head _, ?_⟩
        rw [defs_testBlock]
        exact mem_append_left _ hu
      · refine ⟨_, .tail _ (.tail _ (mem_singleton_self _)), ?_⟩
        rw [defs_buildBlock]
        exact hu
    · rw [hkeptEq] at hu
      rw [defs_testBlock]
      rcases mem_append.1 hu with hu | hu
      · exact mem_append_left _ hu
      · exact absurd (.inr (mem_singleton.1 hu)) hg
    · have hgone : ∀ u, u = reset.token ∨ u = reuse.rebuild.dst → u ∈ block.defs := by
        rintro u (rfl | rfl)
        · exact mem_defs_of_reset h.reset_mem
        · refine h.mem_defs_of_mem_kept ?_
          rw [hkeptEq]
          exact mem_append_right _ (mem_singleton_self _)
      obtain ⟨htest, hvar, hargs, hclaimed, hend⟩ :=
        h.supported_testBlock hf hclaims hgone hb fun u hu => hu
      refine ⟨htest, fun x hx => ?_⟩
      rw [hbehind] at hend
      rcases mem_cons.1 hx with rfl | hx
      · refine supported_updateBlock hupdates hvar hargs fun u hu => ?_
        rw [uses_substitute] at hu
        obtain ⟨w, hw, rfl⟩ := mem_map.1 hu
        unfold replaceVar
        split
        · exact hvar
        · rename_i hne
          exact (hend w (hlast w hw)).resolve_right hne
      · rw [mem_singleton.1 hx]
        exact supported_buildBlock hvar hargs hclaimed fun u hu => hend u (hlast u hu)
    · have hmem := (hsuccs x (mem_of_getElem? hi) _ hloop).1
      have hlt := hwell.lt_of_successor (successors_eq h.here ▸ hmem)
      exact absurd hlt (not_lt.2 (Nat.le_add_right _ _))
  · rcases i with _ | _ | i
    · exact some.inj hi ▸ rfl
    · exact some.inj hi ▸ rfl
    · cases hi
  · rcases mem_cons.1 hx with rfl | hx
    · rfl
    · rw [mem_singleton.1 hx]
      rfl
  · rw [hkeptEq, defs_testBlock, splitBlocks, List.flatMap_cons, List.flatMap_singleton,
      defs_updateBlock hupdates hsize, defs_buildBlock, List.length_cons, List.range'_succ,
      perm_iff_count]
    intro a
    simp only [List.count_append, List.count_cons, List.count_nil]
    omega

/-- Expanding a pair with something behind it. -/
theorem expanding_join (h : PairSite f b block reset reuse) (hf : Expanding f)
    (hclaims : claimsIn reset.var reuse.before [] reset.before = claims) {t : TypeId}
    (hupdates : Updates f₁ reset.var reuse.rebuild.args update f₂ more)
    (hsize : f₁.types.size = f.types.size + 1)
    (hg : Rebuilt f g b (testFor f block claims reset reuse) (joinBlocks f.blocks.size update claims
      reset.var reuse.rebuild (f.types.size + 1 + more.length) reuse.behind block.term) (.bool ::
        (more ++ [t]))) : Expanding g ∧ Replaces f g b block (testFor f block claims reset reuse)
      (joinBlocks f.blocks.size update claims reset.var reuse.rebuild
        (f.types.size + 1 + more.length) reuse.behind block.term) := by
  have hwell := hf.valid.toWellFormed
  set built := f.types.size + 1 + more.length with hbuilt
  -- where the edges of the three blocks lead
  have hsuccs : ∀ i x, (joinBlocks f.blocks.size update claims reset.var reuse.rebuild built
      reuse.behind block.term)[i]? = some x → ∀ t ∈ x.successors,
      (i < 2 ∧ t = f.blocks.size + 2 ∧ EdgeFits x ⟨f.blocks.size + 2, [reuse.rebuild.dst],
        reuse.behind, block.term⟩) ∨ i = 2 ∧ t ∈ block.successors ∧ x.term = block.term := by
    intro i x hi t ht
    rcases i with _ | _ | _ | i
    · cases hi
      exact .inl ⟨by decide, Block.eq_of_mem_jump rfl ht, rfl⟩
    · cases hi
      exact .inl ⟨by decide, Block.eq_of_mem_jump rfl ht, rfl⟩
    · cases hi
      exact .inr ⟨rfl, ht, rfl⟩
    · cases hi
  have hkept : ∀ u ∈ kept block reset reuse, u ∈ (testFor f block claims reset reuse).defs ∨
      u ∈ Block.defs ⟨f.blocks.size + 2, [reuse.rebuild.dst], reuse.behind, block.term⟩ := by
    intro u hu
    rw [defs_testBlock]
    exact (List.mem_append.1 hu).imp_left (mem_append_left _)
  have hr := h.replaces_of_rebuilt hwell hg
    (fun i x hi => ?_) (fun x hx => ?_) ⟨_, _, rfl, rfl, rfl, rfl⟩ (fun x hx s hs => ?_) ?_
  · refine ⟨h.expanding_of_parts hf (fun u => u = reset.token) hr
      (fun x hx => ?_) rfl (fun u hu => .inl hu) (fun u hu => ?_)
      (fun x hx s hs hlt u hu _ => ?_) (fun hb => ?_) fun i x hi hloop => ?_, hr⟩
    · simp only [joinBlocks, mem_cons, not_mem_nil, or_false] at hx
      rcases hx with rfl | rfl | rfl
      · refine h.part_updateBlock hupdates hsize fun u hu => ?_
        rw [List.mem_singleton.1 hu]
        exact h.var_plain
      · refine h.part_buildBlock hclaims fun u hu => .inr ⟨List.mem_singleton.1 hu, ?_⟩
        rw [List.mem_singleton.1 hu, hbuilt, Nat.add_assoc]
        exact Nat.le_add_right _ _
      · exact h.part_merge
    · rcases hkept u hu with hu | hu
      · exact ⟨_, .head _, hu⟩
      · refine ⟨⟨f.blocks.size + 2, [reuse.rebuild.dst], reuse.behind, block.term⟩, ?_, hu⟩
        simp [joinBlocks]
    · obtain ⟨i, hi⟩ := mem_iff_getElem?.1 hx
      rcases hsuccs i x hi s hs with ⟨-, rfl, -⟩ | ⟨rfl, -, -⟩
      · exact absurd hlt (not_lt.2 (Nat.le_add_right _ _))
      · cases hi
        exact hkept u hu
    · have hgone : ∀ u, u = reset.token → u ∈ block.defs := by
        rintro u rfl
        exact mem_defs_of_reset h.reset_mem
      obtain ⟨htest, hvar, hargs, hclaimed, hend⟩ :=
        h.supported_testBlock hf hclaims hgone hb fun u hu => hu
      refine ⟨htest, fun x hx => ?_⟩
      simp only [joinBlocks, mem_cons, not_mem_nil, or_false] at hx
      rcases hx with rfl | rfl | rfl
      · refine supported_updateBlock hupdates hvar hargs fun u hu => ?_
        rw [List.mem_singleton.1 hu]
        exact hvar
      · exact supported_buildBlock hvar hargs hclaimed fun u hu => .inr (List.mem_singleton.1 hu)
      · exact hend.mono fun u => Or.imp_right List.mem_singleton.2
    · rcases hsuccs i x hi _ hloop with ⟨hlt, heq, -⟩ | ⟨-, hmem, -⟩
      · exact absurd (Nat.add_left_cancel heq) hlt.ne
      · have hlt := hwell.lt_of_successor (successors_eq h.here ▸ hmem)
        exact absurd hlt (not_lt.2 (Nat.le_add_right _ _))
  · rcases i with _ | _ | _ | i
    · exact some.inj hi ▸ rfl
    · exact some.inj hi ▸ rfl
    · exact some.inj hi ▸ rfl
    · cases hi
  · simp only [joinBlocks, mem_cons, not_mem_nil, or_false] at hx
    rcases hx with rfl | rfl | rfl
    · rfl
    · rfl
    · exact hwell.term block h.mem
  · obtain ⟨i, hi⟩ := mem_iff_getElem?.1 hx
    rcases hsuccs i x hi s hs with ⟨-, rfl, hfits⟩ | ⟨-, hs, hterm⟩
    · exact .inr ⟨2, _, rfl, rfl, hfits⟩
    · refine .inl ⟨hs, fun target hfits => ?_⟩
      rw [EdgeFits, hterm]
      exact hfits
  · rw [kept, defs_testBlock, joinBlocks, List.flatMap_cons, List.flatMap_cons,
      List.flatMap_singleton, defs_updateBlock hupdates hsize, defs_buildBlock, List.length_cons,
      List.length_append, List.length_singleton, List.range'_succ, List.range'_concat,
      perm_iff_count]
    intro a
    simp only [Block.defs, List.count_append, List.count_cons, List.count_nil, hbuilt, Nat.one_mul]
    omega

end PairSite

end RefCount.Reuse
