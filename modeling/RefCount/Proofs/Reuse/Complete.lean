/-
Expansion is complete: every pair becomes a test whether the value is shared, and
a new value is built only where it is (`expand_complete`).

# The argument

A step takes the first pair of a block out. The block then ends with the test,
and three blocks stand behind it: one that updates the value, one that builds
another, and one with what stood behind the pair (`Opened`). Counted over the
whole function, a reset and a reuse go, and a test and a construction come
(`Opened.keys_perm`).

A block that ends with a test may hold pairs itself. When one of them is
taken out, the test is behind it and moves to the new block (`Test.moved`), with
its two ways as they were: there is no pair in them, so no step changes them.
So the tests of all steps are there at the end (`Reached.step`).
-/
import Mathlib
import RefCount.Proofs.Ownership.Precise
import RefCount.Proofs.Pipeline

namespace RefCount.Reuse

open Ir RefCount.Count List Option Array

variable {pool : Pool} {cls : Classes} {f g : Func} {b : BlockId} {block : Block}
  {reset : ResetAt} {reuse : ReuseAt}

-- ======== one pair

/-- A function with a test in place of a pair, and the blocks behind it. -/
structure Opened (f g : Func) (b : BlockId) (block : Block) (reset : ResetAt) (reuse : ReuseAt)
    (shared built : Var) (fast slow : Block) (tail : List Block) : Prop where
  replaces : ∃ claims : Claims, Replaces f g b block (testBlock block claims
    (reset.before ++ reuse.before) shared reset.var f.blocks.size) (fast :: slow :: tail)
  fast : keysOf fast = []
  slow : keysOf slow = [reuse.rebuild.construct built]
  tail : (tail = [] ∧ reuse.behind = []) ∨
    tail = [⟨f.blocks.size + 2, [reuse.rebuild.dst], reuse.behind, block.term⟩]

theorem exists_opened (h : PairSite f b block reset reuse) (hf : Expanding f) {old : Int}
    {e : Expanded} (he : expandPair pool cls f b block reset reuse old = .ok e) :
    (e.stats.expanded = 1 ∧ e.stats.fallback = 0) ∧ ∃ shared built fast slow tail,
      Opened f e.func b block reset reuse shared built fast slow tail := by
  obtain ⟨e', f₁, f₂, update, more, he', hupdates, hsize, hstats, hcases⟩ :=
    @PairSite.expandPair_ok pool cls f b block reset reuse _ h hf.valid old rfl
  cases he.symm.trans he'
  have hfast : ∀ n term, keysOf (updateBlock n update term) = [] := fun n term =>
    filter_eq_nil_iff.2 fun x hx hkey =>
      Bool.false_ne_true ((hupdates.keyless x hx).symm.trans hkey)
  have hslow : ∀ n (claims : Claims) built term,
      keysOf (buildBlock n claims reset.var reuse.rebuild built term) =
        [reuse.rebuild.construct built] := by
    intro n claims built term
    have hincs : (claims.vars.map Instr.inc).filter isKey = [] :=
      filter_eq_nil_iff.2 fun x hx => by
        obtain ⟨u, -, rfl⟩ := mem_map.1 hx
        exact Bool.false_ne_true
    unfold keysOf buildBlock
    dsimp only
    rw [List.filter_append, List.filter_append, hincs]
    rfl
  refine ⟨hstats, ?_⟩
  rcases hcases with ⟨term, hterm, hbehind, hunread, -, hg⟩ | ⟨t, -, hg⟩
  · obtain ⟨-, hr⟩ := h.expanding_split hf rfl hupdates hsize hterm hbehind hunread hg
    exact ⟨_, _, _, _, _, ⟨_, hr⟩, hfast _ _, hslow _ _ _ _, .inl ⟨rfl, hbehind⟩⟩
  · obtain ⟨-, hr⟩ := h.expanding_join hf rfl hupdates hsize hg
    exact ⟨_, _, _, _, _, ⟨_, hr⟩, hfast _ _, hslow _ _ _ _, .inr rfl⟩

namespace Opened

variable {shared built : Var} {fast slow : Block} {tail : List Block}

/-- A reset and a reuse go, and a test and a construction come. -/
theorem keys_perm (h : Opened f g b block reset reuse shared built fast slow tail)
    (hsite : PairSite f b block reset reuse) :
    (.reset reset.token reset.var :: reuse.rebuild.reuse reset.token :: keys g).Perm
      (.isShared shared reset.var :: reuse.rebuild.construct built :: keys f) := by
  classical
  obtain ⟨claims, hr⟩ := h.replaces
  obtain ⟨rest, hold, hnew⟩ := hr.flatMap_perm keysOf
  have htail : tail.flatMap keysOf = reuse.behind.filter isKey := by
    rcases h.tail with ⟨rfl, hbehind⟩ | rfl
    · rw [hbehind]
      rfl
    · rw [List.flatMap_singleton]
      rfl
  refine ((hnew.cons _).cons _).trans (.trans ?_ ((hold.symm.cons _).cons _))
  rw [flatMap_cons, flatMap_cons, h.fast, h.slow, htail, keysOf, keysOf, testBlock, hsite.code]
  dsimp only
  rw [List.filter_append, filter_strip fun _ => rfl]
  simp only [List.filter_append, filter_cons, isKey, Rebuild.reuse, Rebuild.construct,
    if_true, filter_nil]
  rw [perm_iff_count]
  intro x
  simp only [List.count_cons, List.count_append, List.count_nil]
  omega

end Opened

-- ======== tests

/-- A test that has taken the place of a pair: the parts of the pair, the
variables for the answer and for the new value, and the block that the test
ends. -/
structure Test where
  token : Var
  var : Var
  rebuild : Rebuild
  shared : Var
  built : Var
  place : BlockId

namespace Test

/-- What the pair was. -/
def pair (s : Test) : List Instr := [.reset s.token s.var, s.rebuild.reuse s.token]

/-- What it has become. -/
def parts (s : Test) : List Instr := [.isShared s.shared s.var, s.rebuild.construct s.built]

/-- The two ways behind the test: if the value is shared, the new one is built
and no other; if it is not, none is. -/
def Ways (s : Test) (g : Func) (term : Option Term) : Prop :=
  ∃ slow fast, term = some (.branch s.shared (some slow.id) (some fast.id)) ∧
    g.block? slow.id = some slow ∧ keysOf slow = [s.rebuild.construct s.built] ∧
    g.block? fast.id = some fast ∧ keysOf fast = []

/-- A block ends with the test. -/
def At (s : Test) (g : Func) : Prop :=
  ∃ block before, g.block? s.place = some block ∧
    block.code = before ++ [.isShared s.shared s.var] ∧ (∀ u w, .isShared u w ∉ before) ∧
    s.Ways g block.term

/-- The test, moved from a block to another if it is there. -/
def moved (b m : BlockId) (s : Test) : Test := if s.place = b then { s with place := m } else s

variable {s : Test} {m : BlockId}

theorem pair_moved (s : Test) : (s.moved b m).pair = s.pair := by
  unfold moved
  split <;> rfl

theorem parts_moved (s : Test) : (s.moved b m).parts = s.parts := by
  unfold moved
  split <;> rfl

/-- A test in a block with a pair is behind the pair. -/
theorem At.behind (h : s.At f) (hsite : PairSite f b block reset reuse) (hs : s.place = b) :
    ∃ before, reuse.behind = before ++ [.isShared s.shared s.var] ∧
      (∀ u w, .isShared u w ∉ reset.before ++ reuse.before ++ before) ∧ s.Ways f block.term := by
  obtain ⟨block', before, hplace, hcode, hno, hways⟩ := h
  cases (hs ▸ hsite.here).symm.trans hplace
  have hlast := hsite.code.symm.trans hcode
  rcases eq_nil_or_concat reuse.behind with hnil | ⟨behind, x, hbehind⟩
  · rw [hnil, ← List.cons_append, ← List.append_assoc] at hlast
    cases (append_inj' hlast rfl).2
  · rw [concat_eq_append] at hbehind
    rw [hbehind, ← List.cons_append, ← List.append_assoc, ← List.cons_append,
      ← List.append_assoc] at hlast
    obtain ⟨hbefore, hx⟩ := append_inj' hlast rfl
    rw [(cons.inj hx).1] at hbehind
    refine ⟨behind, hbehind, fun u w hu => hno u w ?_, hways⟩
    rw [← hbefore]
    simp only [List.mem_append, mem_cons] at hu ⊢
    tauto

/-- The ways behind a test hold no pair, so a step leaves them as they are. -/
theorem Ways.opened {term : Option Term} {shared built : Var} {fast slow : Block}
    {tail : List Block} (h : s.Ways f term) (hsite : PairSite f b block reset reuse)
    (ho : Opened f g b block reset reuse shared built fast slow tail) : s.Ways g term := by
  obtain ⟨claims, hr⟩ := ho.replaces
  obtain ⟨slow', fast', hterm, hslow, hslowKeys, hfast, hfastKeys⟩ := h
  have hstay : ∀ y : Block, (∀ token v, .reset token v ∉ keysOf y) → f.block? y.id = some y →
      g.block? y.id = some y := by
    intro y hy hblock
    refine hr.block?_old (fun he => ?_) hblock
    cases (he ▸ hblock).symm.trans hsite.here
    exact hy _ _ (mem_filter.2 ⟨hsite.reset_mem, rfl⟩)
  refine ⟨slow', fast', hterm, hstay slow' (fun _ _ hm => ?_) hslow, hslowKeys,
    hstay fast' (fun _ _ hm => ?_) hfast, hfastKeys⟩
  · rw [hslowKeys, List.mem_singleton] at hm
    cases hm
  · rw [hfastKeys] at hm
    cases hm

end Test

/-- What has become of a function: the tests, and what they stand for. -/
structure Reached (f₀ : Func) (tests : List Test) (f : Func) : Prop where
  perm : (tests.flatMap Test.pair ++ keys f).Perm (tests.flatMap Test.parts ++ keys f₀)
  at_place : ∀ s ∈ tests, s.At f
  places : (tests.map Test.place).Nodup
  all : ∀ b block, f.block? b = some block → ∀ u w, .isShared u w ∈ block.code →
    ∃ s ∈ tests, s.place = b

namespace Reached

variable {f₀ : Func} {tests : List Test} {shared built : Var} {fast slow : Block}
  {tail : List Block}

theorem step (h : Reached f₀ tests f) (hsite : PairSite f b block reset reuse)
    (ho : Opened f g b block reset reuse shared built fast slow tail) :
    Reached f₀ (⟨reset.token, reset.var, reuse.rebuild, shared, built, b⟩ ::
      tests.map (Test.moved b (f.blocks.size + 2))) g := by
  obtain ⟨claims, hr⟩ := ho.replaces
  have hslowId : slow.id = f.blocks.size + 1 := hr.ids 1 slow rfl
  have hfastId : fast.id = f.blocks.size := hr.ids 0 fast rfl
  -- a test at the block of the pair is the only one there, and behind the pair
  have hfree : ∀ u w, .isShared u w ∉ reset.before ++ reuse.before := by
    intro u w hu
    obtain ⟨s, hs, hplace⟩ := h.all b block hsite.here u w (hsite.mem_code (mem_append_left _ hu))
    obtain ⟨before, -, hno, -⟩ := (h.at_place s hs).behind hsite hplace
    exact hno u w (mem_append_left _ hu)
  have htail : ∀ s ∈ tests, s.place = b →
      tail = [⟨f.blocks.size + 2, [reuse.rebuild.dst], reuse.behind, block.term⟩] := by
    intro s hs hplace
    obtain ⟨before, hbehind, -⟩ := (h.at_place s hs).behind hsite hplace
    refine ho.tail.resolve_left fun hnil => ?_
    rw [hnil.2] at hbehind
    exact absurd hbehind.symm (by simp)
  refine ⟨?_, fun s hs => ?_, ?_, fun i x hx u w hu => ?_⟩
  · have hpairs : (tests.map (Test.moved b (f.blocks.size + 2))).flatMap Test.pair =
        tests.flatMap Test.pair := by
      rw [List.flatMap_map]
      exact flatMap_congr fun s _ => s.pair_moved
    have hparts : (tests.map (Test.moved b (f.blocks.size + 2))).flatMap Test.parts =
        tests.flatMap Test.parts := by
      rw [List.flatMap_map]
      exact flatMap_congr fun s _ => s.parts_moved
    rw [flatMap_cons, flatMap_cons, hpairs, hparts]
    classical
    have hstep := perm_iff_count.1 (ho.keys_perm hsite)
    have hrun := perm_iff_count.1 h.perm
    rw [perm_iff_count]
    intro x
    have hstep := hstep x
    have hrun := hrun x
    simp only [Test.pair, Test.parts, List.count_append, List.count_cons, List.count_nil]
      at hstep hrun ⊢
    omega
  · rcases mem_cons.1 hs with rfl | hs
    · refine ⟨_, claims.strip (reset.before ++ reuse.before), hr.block?_here, rfl,
        fun u w hu => hfree u w (mem_filter.1 hu).1, slow, fast, ?_, ?_, ho.slow, ?_, ho.fast⟩
      · rw [hslowId, hfastId]
        rfl
      · rw [hslowId]
        exact hr.block?_new rfl
      · rw [hfastId]
        exact hr.block?_new (i := 0) rfl
    · obtain ⟨s₀, hs₀, rfl⟩ := mem_map.1 hs
      by_cases hplace : s₀.place = b
      · obtain ⟨before, hbehind, hno, hways⟩ := (h.at_place s₀ hs₀).behind hsite hplace
        rw [Test.moved, if_pos hplace]
        refine ⟨⟨f.blocks.size + 2, [reuse.rebuild.dst], reuse.behind, block.term⟩, before,
          hr.block?_new ?_, hbehind, fun u w hu => hno u w (mem_append_right _ hu),
          hways.opened hsite ho⟩
        rw [htail s₀ hs₀ hplace]
        rfl
      · obtain ⟨x, before, hx, hcode, hno, hways⟩ := h.at_place s₀ hs₀
        rw [Test.moved, if_neg hplace]
        exact ⟨x, before, hr.block?_old hplace hx, hcode, hno, hways.opened hsite ho⟩
  · rw [List.map_cons, List.nodup_cons, List.map_map]
    have hlt : ∀ s ∈ tests, s.place < f.blocks.size := fun s hs => by
      obtain ⟨x, -, hx, -⟩ := h.at_place s hs
      exact Func.block_lt hx
    constructor
    · intro hb
      obtain ⟨s, -, hs⟩ := mem_map.1 hb
      rw [Function.comp, Test.moved] at hs
      split at hs
      · have hs : f.blocks.size + 2 = b := hs
        exact absurd (hs ▸ hr.lt) (Nat.not_lt.2 (Nat.le_add_right _ _))
      · contradiction
    · refine List.Nodup.map_on (fun s hs s' hs' he => ?_) (List.Nodup.of_map _ h.places)
      refine inj_on_of_nodup_map h.places hs hs' ?_
      have hs := hlt s hs
      have hs' := hlt s' hs'
      rw [Function.comp, Function.comp, Test.moved, Test.moved] at he
      split at he <;> split at he
      · rename_i hb hb'
        exact hb.trans hb'.symm
      · have he : f.blocks.size + 2 = s'.place := he
        exact absurd (he ▸ hs') (Nat.not_lt.2 (Nat.le_add_right _ _))
      · have he : s.place = f.blocks.size + 2 := he
        exact absurd (he ▸ hs) (Nat.not_lt.2 (Nat.le_add_right _ _))
      · exact he
  · rcases hr.block_cases hx with ⟨rfl, -⟩ | ⟨hne, hold⟩ | ⟨j, rfl, hj⟩
    · exact ⟨_, .head _, rfl⟩
    · obtain ⟨s, hs, hplace⟩ := h.all i x hold u w hu
      refine ⟨_, .tail _ (mem_map_of_mem hs), ?_⟩
      rw [Test.moved, if_neg (hplace ▸ hne), hplace]
    · have hkey : .isShared u w ∈ keysOf x := mem_filter.2 ⟨hu, rfl⟩
      rcases j with _ | _ | j
      · cases hj
        rw [ho.fast] at hkey
        cases hkey
      · cases hj
        rw [ho.slow, List.mem_singleton] at hkey
        cases hkey
      · rcases ho.tail with ⟨rfl, -⟩ | rfl
        · cases hj
        · rcases j with _ | j
          · cases hj
            obtain ⟨s, hs, hplace⟩ := h.all b block hsite.here u w
              (hsite.mem_code (mem_append_right _ hu))
            refine ⟨_, .tail _ (mem_map_of_mem hs), ?_⟩
            rw [Test.moved, if_pos hplace]
          · cases hj

theorem mem_keys_of_reset (h : Reached f₀ tests f) {token v : Var}
    (hv : .reset token v ∈ keys f) : .reset token v ∈ keys f₀ := by
  refine (mem_append.1 (h.perm.subset (mem_append_right _ hv))).resolve_left fun hm => ?_
  obtain ⟨s, -, hs⟩ := mem_flatMap.1 hm
  simp [Test.parts, Rebuild.construct] at hs

end Reached

/-- If all variants are known, every step opens a pair. -/
theorem stepKeeps_reached {f₀ : Func} {variants : Variants}
    (hknown : ∀ token v, .reset token v ∈ f₀.instrs → ∃ old, variants.lookup token = some old) :
    StepKeeps pool cls variants fun f stats =>
      stats.fallback = 0 ∧ ∃ tests, stats.expanded = tests.length ∧ Reached f₀ tests f := by
  rintro f b block e stats hf hblock he ⟨hfallback, tests, hexpanded, h⟩
  unfold expandFirst? at he
  cases hreset : firstReset? block.code with
  | none =>
    rw [hreset] at he
    cases he
  | some reset =>
    obtain ⟨reuse, hreuse, hsite⟩ := exists_pairSite hf.valid.toWellFormed hf.paired hblock hreset
    have hkeys : .reset reset.token reset.var ∈ keys f :=
      mem_flatMap.2 ⟨block, mem_toList_iff.2 hsite.mem, mem_filter.2 ⟨hsite.reset_mem, rfl⟩⟩
    have hinstrs := h.mem_keys_of_reset hkeys
    rw [keys_eq] at hinstrs
    obtain ⟨old, hold⟩ := hknown _ _ (mem_filter.1 hinstrs).1
    rw [hreset] at he
    dsimp only at he
    rw [hreuse] at he
    dsimp only at he
    rw [hold] at he
    obtain ⟨e', he', hsome⟩ := bind_ok he
    cases hsome
    obtain ⟨⟨hone, hzero⟩, shared, built, fast, slow, tail, ho⟩ := exists_opened hsite hf he'
    refine ⟨?_, _, ?_, h.step hsite ho⟩
    · rw [ExpandStats.add, hfallback, hzero]
    · rw [ExpandStats.add, hexpanded, hone, length_cons, length_map]

-- ======== functions

/-- Every pair of a function has become a test in another, and nothing else has
changed in number. -/
structure Complete (f g : Func) (tests : List Test) : Prop where
  /-- The tests stand for the pairs, one for each. -/
  resets : (tests.map fun s => Instr.reset s.token s.var).Perm (f.instrs.filter isReset)
  reuses : ∀ s ∈ tests, s.rebuild.reuse s.token ∈ f.instrs
  /-- They end different blocks, and there are no others. -/
  at_place : ∀ s ∈ tests, s.At g
  places : (tests.map Test.place).Nodup
  all : ∀ b block, g.block? b = some block → ∀ u w, .isShared u w ∈ block.code →
    ∃ s ∈ tests, s.place = b
  count : (g.instrs.filter isTest).length = tests.length
  /-- No token is left. -/
  plain : ∀ x ∈ g.instrs, isPlain x = true
  /-- One more value is built for each test. -/
  constructs : (g.instrs.filter isConstruct).length =
    (f.instrs.filter isConstruct).length + tests.length

theorem Reached.complete {tests : List Test} (h : Reached f tests g)
    (hplain : ∀ x ∈ g.instrs, isPlain x = true) (hno : (keys f).countP isTest = 0) :
    Complete f g tests := by
  have hcount : ∀ (k : Test → List Instr) (p : Instr → Bool) (c : Nat),
      (∀ s, (k s).countP p = c) → (tests.flatMap k).countP p = tests.length * c := by
    intro k p c hk
    rw [List.countP_flatMap]
    simp [Function.comp_def, hk]
  have hperm : ∀ p : Instr → Bool, (tests.flatMap Test.pair).countP p + (keys g).countP p =
      (tests.flatMap Test.parts).countP p + (keys f).countP p := by
    intro p
    rw [← List.countP_append, ← List.countP_append]
    exact h.perm.countP_eq p
  refine ⟨?_, fun s hs => ?_, h.at_place, h.places, h.all, ?_, hplain, ?_⟩
  · have hresets : ∀ f : Func, (keys f).filter isReset = f.instrs.filter isReset := by
      intro f
      rw [keys_eq, List.filter_filter]
      refine filter_congr fun x _ => ?_
      cases x with
      | _ => rfl
    have hnone : (keys g).filter isReset = [] := by
      rw [hresets, filter_eq_nil_iff]
      intro x hx hreset
      have hx := hplain x hx
      cases x with
      | reset => cases hx
      | _ => cases hreset
    have hfilter := h.perm.filter isReset
    rw [List.filter_append, List.filter_append, hnone, hresets, List.append_nil,
      List.filter_flatMap, List.filter_flatMap] at hfilter
    have hparts : (tests.flatMap fun s => s.parts.filter isReset) = [] :=
      flatMap_eq_nil_iff.2 fun s _ => rfl
    rw [hparts, nil_append] at hfilter
    rw [← flatMap_pure_eq_map]
    exact hfilter
  · have hmem : s.rebuild.reuse s.token ∈ tests.flatMap Test.pair ++ keys g :=
      mem_append_left _ (mem_flatMap.2 ⟨s, hs, by simp [Test.pair]⟩)
    rcases mem_append.1 (h.perm.subset hmem) with hm | hm
    · obtain ⟨s', -, hm⟩ := mem_flatMap.1 hm
      simp [Test.parts, Rebuild.construct, Rebuild.reuse] at hm
    · rw [keys_eq] at hm
      exact (mem_filter.1 hm).1
  · have htests := hperm isTest
    rw [hcount _ _ 0 fun _ => rfl, hcount _ _ 1 fun _ => rfl, hno] at htests
    rw [← countP_keys (fun x hx => by cases x <;> trivial)]
    omega
  · have hbuilt := hperm isConstruct
    rw [hcount _ _ 0 fun _ => rfl, hcount _ _ 1 fun _ => rfl] at hbuilt
    rw [← countP_keys (fun x hx => by cases x <;> trivial),
      ← countP_keys (fun x hx => by cases x <;> trivial)]
    omega

theorem no_tests {counted : Func} (hf : f.check .lowered = .ok ()) {cls : Classes}
    {sigs : Signatures} (h : Count.insert f cls sigs = .ok counted) :
    (keys counted).countP isTest = 0 := by
  obtain ⟨counted', hinsert, o, ho⟩ := Ownership.exists_origin hf cls sigs
  cases hinsert.symm.trans h
  obtain rfl := ho.func
  have hdecs : ∀ vs : List Var, ∀ x ∈ vs.map Instr.dec, isTest x = false := by
    intro vs x hx
    obtain ⟨v, -, rfl⟩ := mem_map.1 hx
    rfl
  rw [countP_keys (fun x hx => by cases x <;> trivial), length_eq_zero_iff,
    filter_eq_nil_iff]
  intro x hx
  rw [Bool.not_eq_true]
  obtain ⟨block', hblock', hx⟩ := mem_flatMap.1 hx
  obtain ⟨b, hb⟩ := mem_iff_getElem?.1 (mem_toList_iff.1 hblock')
  rcases ho.counted.code_cases hb with ⟨block, hblock, hcode⟩ | ⟨-, p, t, hcode⟩
  · rw [hcode, List.mem_append, List.mem_append] at hx
    rcases hx with hx | hx | hx
    · exact hdecs _ x hx
    · exact hdecs _ x hx
    · rcases (countCode_spec _ _ _ _).2.1 x hx with hx | ⟨v, -, rfl | rfl⟩
      · have hstage := ho.counted.valid.staged block (mem_of_getElem? hblock) x hx
        cases x with
        | isShared => cases hstage
        | _ => rfl
      · rfl
      · rfl
  · rw [hcode] at hx
    exact hdecs _ x hx

/-- Expansion is complete. In a function that passes the check after lowering
counts can be put in and paired; and then every pair becomes a test, none is
undone, and for each a value is built where it is shared, and nowhere else. -/
theorem expand_complete (hf : f.check .lowered = .ok ()) (pool : Pool) (cls : Classes)
    (sigs : Signatures) : ∃ counted paired n expanded stats,
      Count.insert f cls sigs = .ok counted ∧ annotate pool counted = .ok (paired, n) ∧
      expand pool cls paired = .ok (expanded, stats) ∧ stats.expanded = n ∧ stats.fallback = 0 ∧
      ∃ tests, tests.length = n ∧ Complete paired expanded tests := by
  have hvalid := check_ok_iff.1 hf
  obtain ⟨c, l, -, -, -, -, hsolves, hinsert, hcounted⟩ := Count.insert_valid hvalid cls sigs
  have hanchored := Count.insertWith_anchored hvalid hsolves
  obtain ⟨⟨paired, n⟩, hannotate, hannotated, hn, htests⟩ :=
    annotate_annotated pool hcounted hanchored
  obtain ⟨variants, hvariants, hknown⟩ := variantsOf_ok hannotated
  have hno : (keys paired).countP isTest = 0 := htests.trans (no_tests hf hinsert)
  obtain ⟨⟨expanded, stats⟩, hexpand, hexpanded, -, hfallback, tests, hlength, hreached⟩ :=
    expand_ok cls hannotated hvariants (stepKeeps_reached hknown)
      ⟨rfl, [], rfl, .refl _, by simp, nodup_nil, fun b block hblock u w hu => by
        refine absurd hno (Nat.pos_iff_ne_zero.1 (countP_pos_iff.2 ⟨.isShared u w, ?_, rfl⟩))
        exact mem_flatMap.2 ⟨block, mem_toList_iff.2 (mem_of_getElem? hblock),
          mem_filter.2 ⟨hu, rfl⟩⟩⟩
  have hplain : ∀ x ∈ expanded.instrs, isPlain x = true := by
    intro x hx
    obtain ⟨block, hblock, hx⟩ := mem_flatMap.1 hx
    have hstage := hexpanded.staged block (mem_toList_iff.1 hblock) x hx
    cases x with
    | reset | reuse => cases hstage
    | _ => rfl
  have hcomplete := hreached.complete hplain hno
  have hsame : tests.length = n := by
    rw [← length_map, hcomplete.resets.length_eq]
    exact hn.symm
  exact ⟨_, paired, n, expanded, stats, hinsert, hannotate, hexpand, hlength.trans hsame,
    hfallback, tests, hsame, hcomplete⟩

/-- The loop that takes a box apart and builds it again has one pair. -/
theorem reboxing_complete : Pipeline.reboxing.check .lowered = .ok () ∧
    ∃ counted paired expanded stats,
      Count.insert Pipeline.reboxing Pipeline.boxClasses [("rebox", [.owned])] = .ok counted ∧
      annotate Pipeline.boxes counted = .ok (paired, 1) ∧
      expand Pipeline.boxes Pipeline.boxClasses paired = .ok (expanded, stats) ∧
      stats.expanded = 1 ∧ stats.fallback = 0 ∧
      ∃ tests, tests.length = 1 ∧ Complete paired expanded tests := by
  have hchecked : Pipeline.reboxing.check .lowered = .ok () := by decide +kernel
  have hone : ((Count.insert Pipeline.reboxing Pipeline.boxClasses
      [("rebox", [.owned])]).toOption.bind fun counted =>
        (annotate Pipeline.boxes counted).toOption.map (·.2)) = some 1 := by decide +kernel
  obtain ⟨counted, paired, n, expanded, stats, hinsert, hannotate, h⟩ :=
    expand_complete hchecked Pipeline.boxes Pipeline.boxClasses [("rebox", [.owned])]
  rw [hinsert] at hone
  change (annotate Pipeline.boxes counted).toOption.map (·.2) = some 1 at hone
  rw [hannotate] at hone
  obtain rfl : n = 1 := Option.some.inj hone
  exact ⟨hchecked, counted, paired, expanded, stats, hinsert, hannotate, h⟩

end RefCount.Reuse
