/-
Which arm a decision tree selects. `select` follows a tree with a value and a
guard in hand: where a guard fails it goes on, and there is no answer if the
tree looks at, or gives a name to, a position that the value does not have.

# The result

The tree of a match selects the first arm that matches with a guard that
holds, and fails if there is none (`select_first_match`). What `select` finds
is the first of the tree's leaves that is admitted (`select_of_leaves`), and
leaves are the ways in which arms match, the first arm's first (`Decide`);
that the match has a tree at all is `Total`.
-/
import RefCount.Proofs.Meaning.Decide

namespace RefCount.Meaning

open Machine (Tree)
open Match (Occurrence Binding)
open List Option Except

-- ======== selection

/-- A guard: whether an arm is taken with given names, in whatever order. -/
abbrev Guard := Nat → Multiset (String × Tree) → Bool

mutual

/-- The arm that a tree selects and the names of its leaf, or none. -/
def select (pool : Pool) (guard : Guard) (root : Tree) :
    Match.Tree → Option (Option Candidate)
  | .fail => some none
  | .leaf arm bindings next => do
    let names ← bound? root bindings
    selectNext pool guard root (arm, names.reverse) next
  | .switch occ onTag cases default => do
    let t ← look root occ.path
    let n ← switchOn? onTag t
    match selectCases pool guard root n cases with
    | some found => found
    | none => selectDefault pool guard root default
  | .test occ test thenTree elseTree => do
    let t ← look root occ.path
    let passed ← test? pool t test
    if passed then select pool guard root thenTree else select pool guard root elseTree

/-- A leaf is taken if there is no tree for when its guard fails, or if its
guard holds. -/
def selectNext (pool : Pool) (guard : Guard) (root : Tree) (c : Candidate) :
    Option Match.Tree → Option (Option Candidate)
  | none => some (some c)
  | some t => if guard c.1 c.2 then some (some c) else select pool guard root t

/-- What the case for a number selects, if there is one. -/
def selectCases (pool : Pool) (guard : Guard) (root : Tree) (n : Int64) :
    List (Int64 × Match.Tree) → Option (Option (Option Candidate))
  | [] => none
  | (value, t) :: cases =>
    if value = n then some (select pool guard root t) else selectCases pool guard root n cases

/-- What the default of a switch selects. -/
def selectDefault (pool : Pool) (guard : Guard) (root : Tree) :
    Option Match.Tree → Option (Option Candidate)
  | none => none
  | some t => select pool guard root t

end

/-- A candidate is taken: its arm has no guard, or its guard holds. -/
def admits (guarded : List Bool) (guard : Guard) (c : Candidate) : Bool :=
  !guarded.getD c.1 false || guard c.1 c.2

/-- Some choice of alternatives of an arm matches a value and binds given
names, and the guard of the arm, if it has one, holds of them. -/
def Qualifies (patterns : List Pattern) (guarded : List Bool) (guard : Guard) (value : Tree)
    (arm : Nat) (names : Multiset (String × Tree)) : Prop :=
  ∃ p, patterns[arm]? = some p ∧ (∃ env ∈ matchings value p, (env : Multiset _) = names) ∧
    (guarded.getD arm false = true → guard arm names = true)

-- ======== guards

/-- A leaf says where to go on exactly if its arm has a guard. -/
inductive Guards (guarded : List Bool) : Match.Tree → Prop
  | fail : Guards guarded .fail
  | last {arm : Nat} {bindings : List Binding} (h : guarded.getD arm false = false) :
      Guards guarded (.leaf arm bindings none)
  | next {arm : Nat} {bindings : List Binding} {t : Match.Tree}
      (h : guarded.getD arm false = true) (ht : Guards guarded t) :
      Guards guarded (.leaf arm bindings (some t))
  | switch {occ : Occurrence} {onTag : Bool} {cases : List (Int64 × Match.Tree)}
      {default : Option Match.Tree} (hc : ∀ c ∈ cases, Guards guarded c.2)
      (hd : ∀ t, default = some t → Guards guarded t) :
      Guards guarded (.switch occ onTag cases default)
  | test {occ : Occurrence} {test : Match.Test} {thenTree elseTree : Match.Tree}
      (ht : Guards guarded thenTree) (he : Guards guarded elseTree) :
      Guards guarded (.test occ test thenTree elseTree)

variable {pool : Pool} {guarded : List Bool} {guard : Guard} {root : Tree}

/-- The trees of matrices go on where guards fail. -/
theorem compileWithin_guards {steps : Nat} : ∀ {rows occs} {tree : Match.Tree},
    Match.compileWithin pool guarded steps rows occs = .ok tree → Guards guarded tree := by
  induction steps with
  | zero =>
    intro rows occs tree h
    cases h
  | succ steps ih =>
    intro rows₀ occs tree h
    rw [Match.compileWithin] at h
    obtain ⟨rows, -, h⟩ := bind_ok h
    cases rows with
    | nil =>
      cases h
      exact .fail
    | cons first rest =>
      obtain ⟨picked, -, h⟩ := bind_ok h
      cases picked with
      | none =>
        dsimp only at h
        split at h
        · next hguard =>
          obtain ⟨next, hnext, rfl⟩ := bind_pure_ok h
          exact .next hguard (ih hnext)
        · next hguard =>
          cases h
          exact .last (Bool.eq_false_iff.2 hguard)
      | some col =>
        obtain ⟨o, -, h⟩ := bind_ok h
        obtain ⟨shape, -, h⟩ := bind_ok h
        obtain ⟨column, -, h⟩ := bind_ok h
        obtain ⟨p, -, h⟩ := bind_ok h
        obtain ⟨split, -, h⟩ := bind_ok h
        cases split with
        | onFields =>
          obtain ⟨rows', -, hnext⟩ := bind_ok h
          exact ih hnext
        | onTag count =>
          obtain ⟨cases, hcases, h⟩ := bind_ok h
          have hc : ∀ c ∈ cases, Guards guarded c.2 := by
            intro c hc
            obtain ⟨i, -, hi⟩ := mem_of_mapM_ok hcases hc
            obtain ⟨rows', -, hi⟩ := bind_ok hi
            obtain ⟨next, hnext, rfl⟩ := bind_pure_ok hi
            exact ih hnext
          split at h
          · cases h
            exact .switch hc forall_of_none
          · obtain ⟨rows', -, h⟩ := bind_ok h
            obtain ⟨next, hnext, rfl⟩ := bind_pure_ok h
            exact .switch hc fun t ht => some.inj ht ▸ ih hnext
        | onValue =>
          obtain ⟨tested, -, h⟩ := bind_ok h
          obtain ⟨cases, hcases, h⟩ := bind_ok h
          have hc : ∀ c ∈ cases, Guards guarded c.2 := by
            intro c hc
            obtain ⟨i, -, hi⟩ := mem_of_mapM_ok hcases hc
            obtain ⟨rows', -, hi⟩ := bind_ok hi
            obtain ⟨next, hnext, rfl⟩ := bind_pure_ok hi
            exact ih hnext
          split at h
          · cases h
            exact .switch hc forall_of_none
          · obtain ⟨rows', -, h⟩ := bind_ok h
            obtain ⟨next, hnext, rfl⟩ := bind_pure_ok h
            exact .switch hc fun t ht => some.inj ht ▸ ih hnext
        | byTest test =>
          obtain ⟨holds, -, h⟩ := bind_ok h
          obtain ⟨fails, -, h⟩ := bind_ok h
          obtain ⟨thenTree, hthen, h⟩ := bind_ok h
          obtain ⟨elseTree, helse, rfl⟩ := bind_pure_ok h
          exact .test (ih hthen) (ih helse)

-- ======== leaves

theorem admits_of_not_guarded {c : Candidate} (h : guarded.getD c.1 false = false) :
    admits guarded guard c = true := by
  rw [admits, h]
  rfl

theorem admits_of_guarded {c : Candidate} (h : guarded.getD c.1 false = true) :
    admits guarded guard c = guard c.1 c.2 := by
  rw [admits, h]
  rfl

theorem selectCases_eq {n : Int64} (cases : List (Int64 × Match.Tree)) :
    selectCases pool guard root n cases =
      (cases.find? (·.1 = n)).map fun c => select pool guard root c.2 := by
  induction cases with
  | nil => rfl
  | cons c cases ih =>
    rw [selectCases, find?_cons, ih]
    by_cases hc : c.1 = n <;> simp [hc]

/-- A tree selects the first of its leaves that is admitted. -/
theorem select_of_leaves {tree : Match.Tree} (hg : Guards guarded tree) :
    ∀ {cs : List Candidate}, leaves pool root tree = some cs →
      select pool guard root tree = some (cs.find? (admits guarded guard)) := by
  induction hg with
  | fail =>
    intro cs h
    cases h
    rfl
  | @last arm bindings harm =>
    intro cs h
    rw [leaves] at h
    obtain ⟨names, hnames, h⟩ := bind_eq_some_iff.1 h
    cases h
    rw [select, hnames, find?_cons, admits_of_not_guarded harm]
    rfl
  | @next arm bindings t harm _ ih =>
    intro cs h
    rw [leaves] at h
    obtain ⟨names, hnames, h⟩ := bind_eq_some_iff.1 h
    obtain ⟨rest, hrest, h⟩ := bind_eq_some_iff.1 h
    cases h
    rw [select, hnames]
    show selectNext pool guard root (arm, names.reverse) (some t) = _
    rw [selectNext, ih hrest, find?_cons, admits_of_guarded harm]
    cases guard arm names.reverse <;> rfl
  | @switch occ onTag cases default _ _ ihc ihd =>
    intro cs h
    rw [leaves] at h
    obtain ⟨t, ht, h⟩ := bind_eq_some_iff.1 h
    obtain ⟨n, hn, h⟩ := bind_eq_some_iff.1 h
    rw [select, ht, bind_eq_bind, bind_some, hn, bind_eq_bind,
      bind_some, selectCases_eq]
    rw [leavesCases_eq] at h
    cases hfound : cases.find? (·.1 = n) with
    | some c =>
      rw [hfound] at h
      exact ihc c (mem_of_find?_eq_some hfound) h
    | none =>
      rw [hfound] at h
      cases default with
      | none => cases h
      | some t => exact ihd t rfl h
  | @test occ test thenTree elseTree _ _ iht ihe =>
    intro cs h
    rw [leaves] at h
    obtain ⟨t, ht, h⟩ := bind_eq_some_iff.1 h
    obtain ⟨passed, hpassed, h⟩ := bind_eq_some_iff.1 h
    rw [select, ht, bind_eq_bind, bind_some, hpassed, bind_eq_bind,
      bind_some]
    cases passed with
    | true => exact iht h
    | false => exact ihe h

/-- Candidates behind an arm without a guard are never reached. -/
theorem find?_cut (cs : List Candidate) :
    (cut guarded cs).find? (admits guarded guard) = cs.find? (admits guarded guard) := by
  induction cs with
  | nil => rfl
  | cons c cs ih =>
    rw [cut]
    cases harm : guarded.getD c.1 false with
    | true => simp only [if_true, find?_cons, ih]
    | false =>
      have hc : admits guarded guard c = true := admits_of_not_guarded harm
      simp [hc]

/-- Of candidates in order, the first that is admitted has the smallest arm. -/
theorem find?_arm_le {cs : List Candidate} {ok : Candidate → Bool}
    (hsorted : cs.Pairwise fun a b => a.1 ≤ b.1) {c d : Candidate}
    (hc : cs.find? ok = some c) (hd : d ∈ cs) (hok : ok d = true) : c.1 ≤ d.1 := by
  obtain ⟨-, before, after, rfl, hbefore⟩ := find?_eq_some_iff_append.1 hc
  rcases mem_append.1 hd with hd | hd
  · have := hbefore d hd
    simp [hok] at this
  · rcases mem_cons.1 hd with rfl | hd
    · exact le_rfl
    · exact (pairwise_cons.1 (pairwise_append.1 hsorted).2.1).1 d hd

/-- Arms qualify by the candidates that are admitted. -/
theorem qualifies_iff {patterns : List Pattern} {cs : List Candidate}
    (h : Lists patterns root cs) {arm : Nat} {names : Multiset (String × Tree)} :
    Qualifies patterns guarded guard root arm names ↔
      ∃ c ∈ cs, admits guarded guard c = true ∧ c.unordered = (arm, names) := by
  have hmem : (∃ c ∈ cs, c.unordered = (arm, names)) ↔
      ∃ p, patterns[arm]? = some p ∧ ∃ env ∈ matchings root p, (env : Multiset _) = names := by
    rw [← List.mem_map, h.all.mem_iff, List.mem_map]
    constructor
    · rintro ⟨c, hc, hnames⟩
      obtain ⟨⟨p, i⟩, hp, hc⟩ := mem_flatMap.1 hc
      obtain ⟨env, henv, rfl⟩ := List.mem_map.1 hc
      cases hnames
      exact ⟨p, mem_zipIdx_iff_getElem?.1 hp, env, henv, rfl⟩
    · rintro ⟨p, hp, env, henv, rfl⟩
      exact ⟨(arm, env), mem_flatMap.2 ⟨(p, arm), mem_zipIdx_iff_getElem?.2 hp,
        List.mem_map.2 ⟨env, henv, rfl⟩⟩, rfl⟩
  have hadmits {c : Candidate} (hc : c.unordered = (arm, names)) :
      admits guarded guard c = true ↔ (guarded.getD arm false = true → guard arm names = true) := by
    cases hc
    rw [admits]
    cases guarded.getD c.1 false <;> simp
  constructor
  · rintro ⟨p, hp, henv, hguard⟩
    obtain ⟨c, hc, hnames⟩ := hmem.2 ⟨p, hp, henv⟩
    exact ⟨c, hc, (hadmits hnames).2 hguard, hnames⟩
  · rintro ⟨c, hc, hok, hnames⟩
    obtain ⟨p, hp, henv⟩ := hmem.1 ⟨c, hc, hnames⟩
    exact ⟨p, hp, henv, (hadmits hnames).1 hok⟩

-- ======== first match

/-- A match of patterns that suit the type of the value has a tree, which
selects the first arm that qualifies, with the names of a way for it to match,
and fails exactly if there is none. It looks only at positions that are there:
`select` has an answer. -/
theorem select_first_match {Θ : Typing} (hsize : ∀ τ n vs, Θ.pool.shape? τ = some (.enum n vs) →
      (TypeDef.enum n vs).variants.length ≤ 2 ^ 63) {type : TypeId} {patterns : List Pattern}
    (hp : ∀ p ∈ patterns, Match.Suits Θ (fun v => v.same v = true) type p)
    (guarded : List Bool) {value : Tree} (hv : Θ.Proper type value) :
    ∃ tree, Match.compile Θ.pool type patterns guarded = .ok tree ∧
      ∀ guard : Guard, ∃ found, select Θ.pool guard value tree = some found ∧
        (found = none ↔ ∀ arm names, ¬Qualifies patterns guarded guard value arm names) ∧
        ∀ c, found = some c → Qualifies patterns guarded guard value c.1 c.2 ∧
          ∀ arm names, Qualifies patterns guarded guard value arm names → c.1 ≤ arm := by
  obtain ⟨tree, htree⟩ := Match.exists_compile (fun _ h => h) hp guarded
  obtain ⟨cs, hcs, hleaves⟩ := compile_lists hsize htree hp hv
  refine ⟨tree, htree, fun guard => ⟨_, select_of_leaves (compileWithin_guards htree) hleaves, ?_⟩⟩
  rw [find?_cut]
  refine ⟨?_, fun c hc => ⟨?_, ?_⟩⟩
  · rw [find?_eq_none]
    constructor
    · intro hnone arm names hq
      obtain ⟨c, hc, hok, -⟩ := (qualifies_iff hcs).1 hq
      exact hnone c hc hok
    · intro hnone c hc hok
      exact hnone c.1 c.2 ((qualifies_iff hcs).2 ⟨c, hc, hok, rfl⟩)
  · exact (qualifies_iff hcs).2
      ⟨c, mem_of_find?_eq_some hc, find?_some hc, rfl⟩
  · intro arm names hq
    obtain ⟨d, hd, hok, hnames⟩ := (qualifies_iff hcs).1 hq
    obtain rfl : d.1 = arm := congrArg Prod.fst hnames
    exact find?_arm_le hcs.sorted hc hd hok

-- ======== a sample

/-- A pool with two nested records, number 7 in number 8, and an enum, number
9. -/
def samplePool : Pool where
  types := Pool.initial.types ++ #[
    .record "In" (some [⟨"s", .str⟩]), .record "Out" (some [⟨"i", 7⟩]),
    .enum "Shape" (some [⟨"Dot", []⟩, ⟨"Box", [⟨"w", .int⟩, ⟨"h", .int⟩]⟩])]
  names := [("Shape", 9), ("Out", 8), ("In", 7)] ++ Pool.initial.names
  forms := []

/-- Typing over the sample pool: types agree if they are the same. -/
def sampleTyping : Typing where
  pool := samplePool
  funcs := []
  agree := Eq
  agree_refl _ := rfl
  builtins := by
    intro i b h
    obtain ⟨hi, rfl⟩ := List.getElem?_eq_some_iff.1 h
    have hall : ∀ i : Fin 7, samplePool.get? (i : Nat)
        = some (.builtin (Pool.builtins.get i)) := by decide
    exact hall ⟨i, hi⟩

/-- A box of width 2 and height 5. -/
def sampleBox : Tree := .node (.object 9 1 [] "" 2) [.leaf (.int 2), .leaf (.int 5)]

/-- An arm for boxes of width 1 or 2, and one for dots and small boxes. -/
def samplePatterns : List Pattern :=
  [.as "b" (.variant 9 1 [.or [.lit (.int 1), .lit (.int 2)], .bind "h"]),
    .or [.variant 9 0 [], .variant 9 1 [.range 0 9, .wild]]]

theorem sampleBox_proper : sampleTyping.Proper 9 sampleBox := by
  have hint (n : Int64) : sampleTyping.Proper .int (.leaf (.int n)) := by
    have hn : sampleTyping.LitFits (.int n) .int := rfl
    exact Typing.proper_literal hn sampleTyping.pool
  exact @Typing.proper_construct sampleTyping _ _ [.int, .int] 1 9 rfl
    (.cons (hint 2) (.cons (hint 5) .nil)) rfl

theorem samplePatterns_suit : ∀ p ∈ samplePatterns,
    Match.Suits sampleTyping (fun v => v.same v = true) 9 p := by
  have hone (n : Int64) : Match.Suits sampleTyping (fun v => v.same v = true) .int (.lit (.int n)) :=
    .lit rfl (by simp [Literal.same])
  intro p hp
  rcases mem_cons.1 hp with rfl | hp
  · refine .as (@Match.Suits.variant _ _ _ _ _ [.int, .int] _ rfl (.cons (.or ?_) (.cons .bind .nil)))
    simp [hone]
  · obtain rfl := mem_singleton.1 hp
    refine .or ?_
    simp only [mem_cons, not_mem_nil, or_false, forall_eq_or_imp, forall_eq]
    exact ⟨@Match.Suits.variant _ _ _ _ _ [] _ rfl .nil, @Match.Suits.variant _ _ _ _ _
      [.int, .int] _ rfl (.cons (.range rfl) (.cons .wild .nil))⟩

theorem samplePool_sizes (τ : TypeId) (n : String) (vs : Option (List Variant))
    (h : sampleTyping.pool.shape? τ = some (.enum n vs)) :
    (TypeDef.enum n vs).variants.length ≤ 2 ^ 63 := by
  have hall : ∀ d ∈ samplePool.types, d.variants.length ≤ 2 ^ 63 := by decide
  refine hall _ ?_
  change samplePool.get? (samplePool.underlying τ) = _ at h
  rw [Pool.get?] at h
  split at h
  · cases h
  · exact Array.mem_of_getElem? h

/-- Where the guard of the first arm fails, a box goes to the second. -/
theorem select_first_match_box :
    ∃ tree c, Match.compile sampleTyping.pool 9 samplePatterns [true, false] = .ok tree ∧
      select sampleTyping.pool (fun _ _ => false) sampleBox tree = some (some c) ∧ c.1 = 1 := by
  obtain ⟨tree, htree, hall⟩ := select_first_match samplePool_sizes samplePatterns_suit
    [true, false] sampleBox_proper
  obtain ⟨found, hfound, hnone, hsome⟩ := hall fun _ _ => false
  have hsecond : Qualifies samplePatterns [true, false] (fun _ _ => false) sampleBox 1 0 :=
    ⟨_, rfl, ⟨[], .head _, rfl⟩, fun h => nomatch h⟩
  cases found with
  | none => exact absurd hsecond (hnone.1 rfl 1 0)
  | some c =>
    obtain ⟨⟨p, -, -, hguard⟩, hleast⟩ := hsome c rfl
    have hle := hleast 1 0 hsecond
    have hne : c.1 ≠ 0 := by
      intro h
      rw [h] at hguard
      cases hguard rfl
    exact ⟨tree, c, htree, hfound, by omega⟩

end RefCount.Meaning
