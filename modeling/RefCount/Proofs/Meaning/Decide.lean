/-
What a decision tree tries. `leaves` follows a tree with a value in hand and
lists the candidates that it comes to if every guard fails; there is no answer
if the tree looks where nothing is.

# The result

The tree of a match tries the candidates of the match in a fair order, up to
the first arm without a guard (`compile_lists`). The compilation keeps the ways
of its matrix (`Keeps`) from step to step, so `compileWithin_tries` follows it:
at a switch the value is of one variant or has one value, which is that of a
case or of none; at a test it passes or it does not.
-/
import RefCount.Proofs.Ir.Order
import RefCount.Proofs.Match.Total
import RefCount.Proofs.Meaning.Split

namespace RefCount.Meaning

open Machine (Tree)
open Match (Row Occurrence Binding Test)
open Plain (toInt)
open MvPolynomial (X)
open List Option Except
open Match hiding Tree

-- ======== leaves

/-- Whether a value passes a test, as the code of the test finds out. -/
def test? (pool : Pool) (t : Tree) : Test → Option Bool
  | .lit v => do
    let same ← Plain.prim pool "eq" [t, Plain.literal pool v]
    return toInt same ≠ 0
  | .range low high => do
    let above ← Plain.prim pool "le" [.leaf (.int low), t]
    let below ← Plain.prim pool "le" [t, .leaf (.int high)]
    let both ← Plain.prim pool "and" [above, below]
    return toInt both ≠ 0

/-- The number that a switch looks at. -/
def switchOn? (onTag : Bool) (t : Tree) : Option Int64 :=
  if onTag then (Plain.tagOf t).map toInt else some (toInt t)

/-- The names of bindings, if there is something at their positions. -/
def bound? (root : Tree) (bs : List Binding) : Option Env :=
  bs.mapM fun b => (look root b.occurrence.path).map (b.name, ·)

mutual

/-- The candidates that a tree comes to, as long as guards fail. -/
def leaves (pool : Pool) (root : Tree) : Match.Tree → Option (List Candidate)
  | .fail => some []
  | .leaf arm bindings next => do
    let names ← bound? root bindings
    let rest ← leavesNext pool root next
    return (arm, names.reverse) :: rest
  | .switch occ onTag cases default => do
    let t ← look root occ.path
    let n ← switchOn? onTag t
    match leavesCases pool root n cases with
    | some found => found
    | none => leavesDefault pool root default
  | .test occ test thenTree elseTree => do
    let t ← look root occ.path
    let passed ← test? pool t test
    if passed then leaves pool root thenTree else leaves pool root elseTree

/-- The candidates where a guard fails. -/
def leavesNext (pool : Pool) (root : Tree) : Option Match.Tree → Option (List Candidate)
  | none => some []
  | some t => leaves pool root t

/-- The candidates of the case for a number, if there is one. -/
def leavesCases (pool : Pool) (root : Tree) (n : Int64) :
    List (Int64 × Match.Tree) → Option (Option (List Candidate))
  | [] => none
  | (value, t) :: cases =>
    if value = n then some (leaves pool root t) else leavesCases pool root n cases

/-- The candidates of the default of a switch. -/
def leavesDefault (pool : Pool) (root : Tree) : Option Match.Tree → Option (List Candidate)
  | none => none
  | some t => leaves pool root t

end

/-- Candidates up to the first whose arm has no guard. -/
def cut (guarded : List Bool) : List Candidate → List Candidate
  | [] => []
  | c :: cs => if guarded.getD c.1 false then c :: cut guarded cs else [c]

variable {Θ : Typing} {L : Literal → Prop} {pool : Pool} {guarded : List Bool} {root t : Tree}
  {ts us : List Tree} {rows rows' : List Row} {occs : List Occurrence} {col : Nat}

variable {n : Int64}

theorem leavesCases_eq (cases : List (Int64 × Match.Tree)) : leavesCases pool root n cases =
      (cases.find? (·.1 = n)).map fun c => leaves pool root c.2 := by
  induction cases with
  | nil => rfl
  | cons c cases ih =>
    rw [leavesCases, find?_cons, ih]
    by_cases hc : c.1 = n <;> simp [hc]

-- ======== positions

/-- A switch goes on with the case for its number. -/
theorem leaves_switch {o : Occurrence} {onTag : Bool}
    {cases : List (Int64 × Match.Tree)} {default : Option Match.Tree}
    (hlook : look root o.path = some t) (hn : switchOn? onTag t = some n) :
    leaves pool root (.switch o onTag cases default) =
      match cases.find? (·.1 = n) with
      | some c => leaves pool root c.2
      | none => leavesDefault pool root default := by
  rw [leaves, hlook, bind_eq_bind, bind_some, hn, bind_eq_bind, bind_some, leavesCases_eq]
  cases cases.find? (·.1 = n) <;> rfl

theorem look_append {path path' : List Step} :
    look root (path ++ path') = (look root path).bind (look · path') := by
  rw [look, foldlM_append]
  rfl

theorem look_step {step : Step} (hv : isVariant t step.variant = true) :
    look t [step] = Plain.project t step.variant step.field := by
  cases h : Plain.project t step.variant step.field <;> simp [look, hv, h]

theorem bound?_of_seen {bs : List Binding} (h : ∀ b ∈ bs, (look root b.occurrence.path).isSome) :
    bound? root bs = some (bound root bs) := by
  induction bs with
  | nil => rfl
  | cons b bs ih =>
    obtain ⟨t, ht⟩ := isSome_iff_exists.1 (h b (.head _))
    have hrest := ih fun b' hb' => h b' (.tail _ hb')
    rw [bound?] at hrest ⊢
    rw [mapM_cons, ht, hrest]
    show some ((b.name, t) :: bound root bs) = some (bound root (b :: bs))
    rw [bound, bound, map_cons, valueAt_of_look ht]

/-- The tree at an occurrence of a matrix. -/
theorem Shows.get (h : Shows Θ root occs ts) {o : Occurrence} (ho : occs[col]? = some o) :
    ∃ t, ts[col]? = some t ∧ look root o.path = some t ∧ Θ.Proper o.type t :=
  forall₂_getElem? h ho

/-- The trees at occurrences of which one is replaced. -/
theorem Shows.splice (h : Shows Θ root occs ts) {news : List Occurrence}
    (hnew : Shows Θ root news us) : Shows Θ root (splice occs col news) (splice ts col us) :=
  rel_append (rel_append (forall₂_take col h) hnew) (forall₂_drop (col + 1) h)

variable {τs : List TypeId} {variant : Int}

theorem Shows.fields {o : Occurrence} (ho : look root o.path = some t) (ht : Θ.Proper o.type t)
    (hτs : Θ.pool.fields o.type variant = .ok τs) (hv : isVariant t variant = true) :
    Shows Θ root (fieldOccurrences o variant τs) (t.children τs.length) := by
  obtain ⟨hproper, hproject⟩ := ht.fields hτs hv
  obtain ⟨hlen, hget⟩ := forall₂_iff_get.1 hproper
  refine forall₂_iff_get.2 ⟨by simp [fieldOccurrences, Tree.children], ?_⟩
  intro k hk hk'
  have hk₀ : k < τs.length := by simpa [fieldOccurrences] using hk
  have hstep := hproject k hk₀
  have hproper := hget k hk₀ (hlen ▸ hk₀)
  simp only [fieldOccurrences, Tree.children, get_eq_getElem, getElem_map,
    getElem_zipIdx, getElem_range, zero_add] at hproper ⊢
  refine ⟨?_, hproper⟩
  rw [look_append, ho, bind_some, look_step hv]
  exact hstep

-- ======== variants

variable {τ : TypeId}

/-- A value of an enum is of one of its variants, which its tag tells. -/
theorem exists_variant {n : String} {vs : Option (List Variant)}
    (hd : Θ.pool.shape? τ = some (.enum n vs)) (ht : Θ.Proper τ t) :
    ∃ i < (TypeDef.enum n vs).variants.length, isVariant t i = true ∧
      switchOn? true t = some (Int64.ofInt i) := by
  have hh := ht.holds
  rw [Typing.holds_iff hd, Typing.Root] at hh
  split at hh
  · obtain ⟨v, us, hl, hus, -⟩ := hh
    rw [Typing.fields_underlying hd] at hus
    obtain ⟨i, hi, rfl⟩ := Typing.variant_lt hd hus
    refine ⟨i, hi, by simp [isVariant, hl], ?_⟩
    rw [switchOn?, if_pos rfl, Plain.tagOf, hl]
    rfl
  · obtain ⟨m, hm⟩ := hh
    obtain ⟨i, hi, rfl⟩ := (Typing.proper_iff.1 ht).2.1 _ hd m hm
    refine ⟨i, hi, by simp [isVariant, hm], ?_⟩
    rw [switchOn?, if_pos rfl, Plain.tagOf, hm]
    rfl

/-- The variants of every enum can be numbered. -/
def Numberable (pool : Pool) : Prop :=
  ∀ τ n vs, pool.shape? τ = some (.enum n vs) → (TypeDef.enum n vs).variants.length ≤ 2 ^ 63

variable {i : Int}

theorem isVariant_unique (hsize : Numberable Θ.pool) (ht : Θ.Proper τ t)
    {j : Int} {τs' : List TypeId} (hi : Θ.pool.fields τ i = .ok τs)
    (hj : Θ.pool.fields τ j = .ok τs') (hvi : isVariant t i = true)
    (hvj : isVariant t j = true) : i = j := by
  cases hl : t.label? with
  | none => simp [isVariant, hl] at hvi
  | some l =>
  cases l with
  | tuple n =>
    simp only [isVariant, hl, decide_eq_true_eq] at hvi hvj
    exact hvi.trans hvj.symm
  | object ty v s f n =>
    simp only [isVariant, hl, decide_eq_true_eq] at hvi hvj
    exact hvi.symm.trans hvj
  | int m =>
    simp only [isVariant, hl, decide_eq_true_eq] at hvi hvj
    -- only an enum without fields is a number
    have henum : ∃ n vs, Θ.pool.shape? τ = some (.enum n vs) := by
      rcases Plain.holds_fields hi ht.holds with ⟨-, hl', -⟩ | ⟨_, _, hl', -⟩ | ⟨-, n, vs, -, hd, -⟩
      · cases hl.symm.trans hl'
      · cases hl.symm.trans hl'
      · exact ⟨n, vs, hd⟩
    obtain ⟨n, vs, hd⟩ := henum
    have hbound := hsize τ n vs hd
    obtain ⟨a, ha, rfl⟩ := Typing.variant_lt hd hi
    obtain ⟨b, hb, rfl⟩ := Typing.variant_lt hd hj
    exact ofInt_inj (by omega) (by omega) (hvi.symm.trans hvj)
  | _ => simp [isVariant, hl] at hvi

/-- A record or a tuple has one variant, and so do its values. -/
theorem single_variant {d : TypeDef} (hd : Θ.pool.shape? τ = some d) (hnot : ∀ n vs, d ≠ .enum n vs)
    (hi : Θ.pool.fields τ i = .ok τs) (ht : Θ.Proper τ t) : i = 0 ∧ isVariant t 0 = true := by
  refine ⟨variant_eq_zero hd hnot hi, ?_⟩
  rcases Plain.holds_fields hi ht.holds with ⟨-, hl, -⟩ | ⟨v, us, hl, hus, -⟩ | ⟨-, n, vs, -, hd', -⟩
  · simp [isVariant, hl]
  · obtain rfl := variant_eq_zero hd hnot hus
    simp [isVariant, hl]
  · exact absurd (some.inj (hd.symm.trans hd')) (hnot n vs)

variable {p : Pattern}

theorem pattern_of_fields {j : Int} (hj : Θ.pool.fields τ j = .ok τs) (hn : Normal p)
    (hp : Suits Θ L τ p) : p = .wild ∨ ∃ u i fields τs', p = .variant u i fields ∧
      Θ.pool.fields τ i = .ok τs' ∧ fields.length = τs'.length := by
  have hnone (b : Builtin) : ¬Θ.Is b τ := by
    intro hb
    rcases Plain.fields_ok hj with htuple | ⟨d, hd, -, ⟨n, fs, rfl⟩ | ⟨n, vs, rfl⟩⟩
    · rw [hb] at htuple
      cases htuple
    · rw [hb] at hd
      cases hd
    · rw [hb] at hd
      cases hd
  cases hp with
  | wild => exact .inl rfl
  | bind => exact hn.elim
  | lit hv _ => exact absurd hv (hnone _)
  | range hr => exact absurd hr (hnone _)
  | variant hf hs => exact .inr ⟨_, _, _, _, rfl, hf, hs.length_eq.symm⟩
  | as _ => exact hn.elim
  | or _ => exact hn.elim

theorem pattern_of_builtin {b : Builtin} (hb : Θ.Is b τ)
    (hn : Normal p) (hp : Suits Θ L τ p) : p = .wild ∨ IsTest p := by
  cases hp with
  | wild => exact .inl rfl
  | bind => exact hn.elim
  | lit => exact .inr (.inl ⟨_, rfl⟩)
  | range hr => exact .inr (.inr ⟨_, _, rfl⟩)
  | variant hf hs =>
    simp [Pool.fields, show Θ.pool.shape? τ = some (.builtin b) from hb,
      TypeDef.variants, Pool.at?] at hf
  | as _ => exact hn.elim
  | or _ => exact hn.elim

-- ======== tests

/-- Whether a truth value is one. -/
theorem toInt_ofBool (b : Bool) {r : Tree}
    (h : Plain.scalar? (.ok (.ofBool b)) = some r) : decide (toInt r ≠ 0) = b := by
  cases h
  cases b <;> rfl

/-- An operation on numbers, by the kind of the first. -/
theorem prim_of_number {op : Op} (hobj : Plain.isObject t = false) (u : Tree)
    (hop : op ≠ "concat" ∧ op ≠ "strlen") : Plain.prim pool op [t, u] =
      match t.label? with
      | some (.float x) => Plain.scalar? (Machine.floatPrim op x (Plain.toFloat u))
      | _ => Plain.scalar? (Machine.intPrim op (toInt t) (toInt u)) := by
  have hstr : Plain.isStringOp op [t, u] = false := by
    simp [Plain.isStringOp, hop.1, hop.2, hobj]
  unfold Plain.prim
  exact if_neg (by rw [hstr]; exact Bool.false_ne_true)

/-- An operation on integers. -/
theorem prim_of_int {op : Op} {m : Int64} (hl : t.label? = some (.int m)) (u : Tree)
    (hop : op ≠ "concat" ∧ op ≠ "strlen") :
    Plain.prim pool op [t, u] = Plain.scalar? (Machine.intPrim op m (toInt u)) := by
  have hobj : Plain.isObject t = false := by simp [Plain.isObject, hl, Machine.Label.isObject]
  have hint : toInt t = m := by simp [toInt, hl]
  rw [prim_of_number hobj u hop, hl, hint]

variable {v : Literal}

/-- The code of a test finds out whether a value is that of a literal. -/
theorem test?_lit (hv : Θ.LitFits v τ) (ht : Θ.Proper τ t) :
    test? pool t (.lit v) = some (isLiteral t v) := by
  have hh := ht.holds
  rw [Typing.holds_iff hv] at hh
  -- the numbers of integers, truth values and characters are compared
  have hnumber (m n : Int64) (hl : t.label? = some (.int m))
      (hn : toInt (Plain.literal pool v) = n) (hlit : isLiteral t v = decide (toInt t = n)) :
      test? pool t (.lit v) = some (isLiteral t v) := by
    have hint : toInt t = m := by simp [toInt, hl]
    obtain ⟨r, hr⟩ : ∃ r, Plain.scalar? (Machine.intPrim "eq" m n) = some r := ⟨_, rfl⟩
    rw [test?, prim_of_int hl _ (by decide), hn, hr, hlit, hint]
    exact congrArg some (toInt_ofBool _ hr)
  cases v with
  | int n =>
    obtain ⟨m, hl⟩ := hh
    exact hnumber m n hl rfl rfl
  | bool b =>
    obtain ⟨m, hl⟩ := hh
    exact hnumber m _ hl rfl rfl
  | char c =>
    obtain ⟨m, hl⟩ := hh
    exact hnumber m _ hl rfl rfl
  | unit =>
    have hl : t.label? = some .unit := hh
    have hobj : Plain.isObject t = false := by
      simp [Plain.isObject, hl, Machine.Label.isObject]
    have hint : toInt t = 0 := by simp [toInt, hl]
    rw [test?, prim_of_number hobj _ (by decide), hl, hint]
    rfl
  | float x =>
    obtain ⟨y, hl⟩ := hh
    have hfloat : Plain.toFloat t = y := by simp [Plain.toFloat, hl]
    have hobj : Plain.isObject t = false := by
      simp [Plain.isObject, hl, Machine.Label.isObject]
    obtain ⟨r, hr⟩ : ∃ r, Plain.scalar? (Machine.floatPrim "eq" y x) = some r := ⟨_, rfl⟩
    rw [test?, prim_of_number hobj _ (by decide), hl, isLiteral, hfloat]
    show (Plain.scalar? (Machine.floatPrim "eq" y x) >>= _) = _
    rw [hr]
    exact congrArg some (toInt_ofBool _ hr)
  | str s =>
    obtain ⟨_, _, s', hl⟩ := hh
    have hobj : Plain.isObject t = true := by simp [Plain.isObject, hl, Machine.Label.isObject]
    have htext : Plain.text? t = some s' := by simp [Plain.text?, hl]
    have htexts : [t, Plain.literal pool (.str s)].mapM Plain.text? = some [s', s] := by
      rw [mapM_cons, htext]
      rfl
    have hprim : Plain.prim pool "eq" [t, Plain.literal pool (.str s)] =
        some (.leaf (.int (if s' = s then 1 else 0))) := by
      unfold Plain.prim
      rw [if_pos (by simp [Plain.isStringOp, hobj]), htexts]
      rfl
    rw [test?, hprim, isLiteral, htext]
    by_cases hs : s' = s
    · subst hs
      simp [toInt]
    · simp [hs, toInt]

/-- The code of a test finds out whether an integer is in a range. -/
theorem test?_range {low high : Int64} (hτ : Θ.Is .int τ) (ht : Θ.Proper τ t) :
    test? pool t (.range low high) = some (passes t (.range low high)) := by
  have hh := ht.holds
  rw [Typing.holds_iff hτ] at hh
  obtain ⟨m, hl⟩ := hh
  have hint : toInt t = m := by simp [toInt, hl]
  have hleaf (n : Int64) : (Machine.Tree.leaf (.int n)).label? = some (.int n) := rfl
  have hle (x y : Int64) : Plain.scalar? (Machine.intPrim "le" x y) =
      some (.leaf (.int (if x ≤ y then 1 else 0))) := by
    by_cases h : x ≤ y <;> simp [Machine.intPrim, Plain.scalar?, Machine.Value.ofBool, h]
  have hbelow : Plain.prim pool "le" [t, .leaf (.int high)] =
      some (.leaf (.int (if m ≤ high then 1 else 0))) := by
    rw [prim_of_int hl _ (by decide)]
    exact hle _ _
  have habove : Plain.prim pool "le" [.leaf (.int low), t] =
      some (.leaf (.int (if low ≤ m then 1 else 0))) := by
    rw [prim_of_int (hleaf low) _ (by decide), hint]
    exact hle _ _
  rw [test?, habove, hbelow]
  simp only [bind_eq_bind, bind_some]
  rw [prim_of_int (hleaf _) _ (by decide), passes, hint]
  by_cases hlow : low ≤ m <;> by_cases hhigh : m ≤ high <;>
    · simp only [hlow, hhigh, if_true, if_false]
      rfl

-- ======== compilation

/-- A tree tries the ways in which the rows of a matrix match, those of an
earlier arm first, up to the first arm without a guard. -/
def Tries (pool : Pool) (guarded : List Bool) (root : Tree) (ts : List Tree)
    (rows : List Row) (tree : Match.Tree) : Prop :=
  ∃ cs, leaves pool root tree = some (cut guarded cs) ∧ tally cs = matrixTally root ts rows ∧
    (cs.Pairwise fun a b => a.1 ≤ b.1) ∧ ∀ c ∈ cs, ∃ r ∈ rows, c.1 = r.arm

variable {tree : Match.Tree}

theorem Tries.of_keeps (h : Tries pool guarded root us rows' tree)
    (hk : Keeps root ts rows us rows') : Tries pool guarded root ts rows tree := by
  obtain ⟨cs, hleaves, htally, hsorted, harms⟩ := h
  refine ⟨cs, hleaves, htally.trans hk.tally, hsorted, fun c hc => ?_⟩
  obtain ⟨r', hr', harm⟩ := harms c hc
  obtain ⟨r, hr, harm'⟩ := hk.origin r' hr'
  exact ⟨r, hr, harm.trans harm'⟩

theorem Tries.congr {tree' : Match.Tree} (h : Tries pool guarded root ts rows tree)
    (heq : leaves pool root tree' = leaves pool root tree) :
    Tries pool guarded root ts rows tree' := by
  obtain ⟨cs, hleaves, hcs⟩ := h
  exact ⟨cs, heq.trans hleaves, hcs⟩

/-- The ways of a matrix can be listed in order. -/
theorem exists_candidates (hs : Sorted rows) : ∃ cs, tally cs = matrixTally root ts rows ∧
    (cs.Pairwise fun a b => a.1 ≤ b.1) ∧ ∀ c ∈ cs, ∃ r ∈ rows, c.1 = r.arm := by
  induction rows with
  | nil => exact ⟨[], rfl, .nil, fun c hc => nomatch hc⟩
  | cons r rows ih =>
    obtain ⟨hfirst, hs⟩ := pairwise_cons.1 hs
    obtain ⟨cs, htally, hsorted, harms⟩ := ih hs
    let own : List Candidate :=
      (columnMatchings ts r.patterns).map fun e => (r.arm, bound root r.bindings ++ e)
    have harm : ∀ c ∈ own, c.1 = r.arm := by
      intro c hc
      obtain ⟨e, -, rfl⟩ := mem_map.1 hc
      rfl
    have hown : tally own = rowTally root ts r := by
      rw [tally, List.map_map, rowTally, weightAll, count, ← List.sum_map_mul_left]
      simp only [Function.comp_def, product_append, mul_assoc]
    refine ⟨own ++ cs, ?_, ?_, ?_⟩
    · have happend : tally (own ++ cs) = tally own + tally cs := by simp [tally]
      rw [happend, hown, htally, matrixTally, matrixTally, map_cons, sum_cons]
    · refine pairwise_append.2 ⟨?_, hsorted, ?_⟩
      · refine pairwise_of_forall_mem_list fun a ha b hb => ?_
        rw [harm a ha, harm b hb]
      · intro a ha b hb
        obtain ⟨r', hr', hb'⟩ := harms b hb
        rw [harm a ha, hb']
        exact hfirst r' hr'
    · intro c hc
      rcases mem_append.1 hc with hc | hc
      · exact ⟨r, .head _, harm c hc⟩
      · obtain ⟨r', hr', hc'⟩ := harms c hc
        exact ⟨r', .tail _ hr', hc'⟩

/-- A first row that tests nothing matches in one way. -/
theorem rowTally_wild {r : Row} (hw : ∀ p ∈ r.patterns, p = .wild)
    (hlen : r.patterns.length = ts.length) :
    X (.inl r.arm) * product (bound root r.bindings).reverse = rowTally root ts r := by
  rw [rowTally, weightAll_wild hlen.symm hw, mul_one,
    product_perm (reverse_perm (bound root r.bindings))]

/-- Behind the arm of a first row that tests nothing come the other rows, if
the arm has a guard. -/
theorem tries_leaf {first : Row} {rest : List Row} {next : Option Match.Tree}
    (hw : ∀ p ∈ first.patterns, p = .wild) (hlen : first.patterns.length = ts.length)
    (hseen : Seen root first) (hs : Sorted (first :: rest))
    (hnext : (guarded.getD first.arm false = true ∧ ∃ tree, next = some tree ∧
      Tries pool guarded root ts rest tree) ∨ guarded.getD first.arm false = false ∧ next = none) :
    Tries pool guarded root ts (first :: rest) (.leaf first.arm first.bindings next) := by
  obtain ⟨hfirst, hs⟩ := pairwise_cons.1 hs
  -- what comes behind: what the tree tries, or if there is none any list of it
  obtain ⟨cs, hleaves, htally, hsorted, harms⟩ : ∃ cs,
      leavesNext pool root next = some (if guarded.getD first.arm false then cut guarded cs
        else []) ∧ tally cs = matrixTally root ts rest ∧
      (cs.Pairwise fun a b => a.1 ≤ b.1) ∧ ∀ c ∈ cs, ∃ r ∈ rest, c.1 = r.arm := by
    rcases hnext with ⟨hg, tree, rfl, cs, hleaves, hcs⟩ | ⟨hg, rfl⟩
    · exact ⟨cs, by rw [if_pos hg, leavesNext]; exact hleaves, hcs⟩
    · obtain ⟨cs, hcs⟩ := @exists_candidates root ts rest hs
      exact ⟨cs, by rw [hg]; rfl, hcs⟩
  refine ⟨(first.arm, (bound root first.bindings).reverse) :: cs, ?_, ?_, ?_, ?_⟩
  · rw [leaves, bound?_of_seen hseen, hleaves]
    show some _ = some _
    rw [cut]
    dsimp only
    split <;> rfl
  · have hcons (c : Candidate) : tally (c :: cs) = X (.inl c.1) * product c.2 + tally cs := by
      simp [tally]
    rw [hcons, rowTally_wild hw hlen, htally, matrixTally, matrixTally, map_cons, sum_cons]
  · refine pairwise_cons.2 ⟨fun c hc => ?_, hsorted⟩
    obtain ⟨r, hr, hc'⟩ := harms c hc
    rw [hc']
    exact hfirst r hr
  · intro c hc
    rcases mem_cons.1 hc with rfl | hc
    · exact ⟨first, .head _, rfl⟩
    · obtain ⟨r, hr, hc'⟩ := harms c hc
      exact ⟨r, .tail _ hr, hc'⟩

/-- The case for a number among cases that are made one by one. -/
theorem find?_mapM {ε α : Type} {f : α → Except ε (Int64 × Match.Tree)} {key : α → Int64}
    {x : α} : ∀ {xs : List α} {cases : List (Int64 × Match.Tree)}, xs.mapM f = .ok cases →
      (∀ y c, f y = .ok c → c.1 = key y) → (∀ y ∈ xs, key y = key x → y = x) →
      (x ∈ xs → ∃ c, f x = .ok c ∧ cases.find? (·.1 = key x) = some c) ∧
      (x ∉ xs → cases.find? (·.1 = key x) = none) := by
  intro xs
  induction xs with
  | nil =>
    intro cases h _ _
    cases h
    exact ⟨fun hx => absurd hx not_mem_nil, fun _ => rfl⟩
  | cons y xs ih =>
    intro cases h hkey hinj
    rw [mapM_cons] at h
    obtain ⟨c, hc, h⟩ := bind_ok h
    obtain ⟨cs, hcs, h⟩ := bind_ok h
    obtain rfl : c :: cs = cases := ok.inj h
    obtain ⟨hin, hout⟩ := ih hcs hkey fun z hz => hinj z (.tail _ hz)
    have hck := hkey y c hc
    rw [find?_cons]
    by_cases hy : key y = key x
    · obtain rfl := hinj y (.head _) hy
      refine ⟨fun _ => ⟨c, hc, by simp [hck]⟩, fun hx => absurd (.head _) hx⟩
    · have hne : ¬c.1 = key x := by rwa [hck]
      simp only [hne, decide_false]
      refine ⟨fun hx => ?_, fun hx => hout fun hm => hx (.tail _ hm)⟩
      rcases mem_cons.1 hx with rfl | hx
      · exact absurd rfl hy
      · exact hin hx

-- ----------------------------------------------------------------- columns

/-- The column of a matrix holds the patterns of its rows. -/
theorem mem_column {column : List Pattern} (h : rows.mapM (·.column col) = .ok column)
    : p ∈ column ↔ ∃ r ∈ rows, r.patterns[col]? = some p := by
  constructor
  · intro hp
    obtain ⟨r, hr, hrun⟩ := mem_of_mapM_ok h hp
    exact ⟨r, hr, Row.column_ok hrun⟩
  · rintro ⟨r, hr, hp⟩
    obtain ⟨q, hq, hrun⟩ := exists_of_forall₂ (mapM_ok h) hr
    rw [Row.column_ok hrun] at hp
    exact some.inj hp ▸ hq

theorem mem_testedVariants {column : List Pattern} :
    i ∈ testedVariants column ↔ ∃ u ps, Pattern.variant u i ps ∈ column := by
  rw [testedVariants, mem_eraseDups, mem_filterMap]
  constructor
  · rintro ⟨p, hp, h⟩
    cases p with
    | variant u j ps =>
      cases h
      exact ⟨u, ps, hp⟩
    | _ => cases h
  · rintro ⟨u, ps, hp⟩
    exact ⟨_, hp, rfl⟩

/-- The numbers that are tested in a column are those of its literals. -/
theorem testedValues_ok {column : List Pattern} {tested : List Int64}
    (h : testedValues column = .ok tested) : tested.Nodup ∧
      (∀ v, Pattern.lit v ∈ column → ∃ n ∈ tested, switchValue v = .ok n) ∧
      ∀ n ∈ tested, ∃ v, Pattern.lit v ∈ column ∧ switchValue v = .ok n := by
  obtain ⟨values, hvalues, rfl⟩ := bind_pure_ok h
  refine ⟨nodup_eraseDups _ le_rfl, fun v hv => ?_, fun n hn => ?_⟩
  · obtain ⟨o, ho, hrun⟩ := exists_of_forall₂ (mapM_ok hvalues) hv
    obtain ⟨n, hn, hrun⟩ := bind_ok hrun
    exact ⟨n, mem_eraseDups.2 (mem_filterMap.2 ⟨o, ho, (ok.inj hrun).symm⟩), hn⟩
  · obtain ⟨o, ho, rfl⟩ := mem_filterMap.1 (mem_eraseDups.1 hn)
    obtain ⟨p, hp, hrun⟩ := mem_of_mapM_ok hvalues ho
    cases p with
    | lit v =>
      obtain ⟨m, hm, hrun⟩ := bind_ok hrun
      have hmn : m = n := some.inj (ok.inj hrun)
      exact ⟨v, hp, hmn ▸ hm⟩
    | _ => cases hrun

theorem switchValue_iff (h : switchValue v = .ok n) : n = toInt t ↔ isLiteral t v = true := by
  cases v with
  | int m =>
    cases h
    simp [isLiteral, eq_comm]
  | bool b =>
    cases h
    simp [isLiteral, eq_comm]
  | char c =>
    cases h
    simp [isLiteral, eq_comm]
  | _ => cases h

/-- How a column is split, by the pattern of the first row. -/
theorem splitOf_cases {shape : TypeDef} {column : List Pattern}
    {split : Split} (h : splitOf shape column p = .ok split) :
    (∃ u i ps n vs, p = .variant u i ps ∧ shape = .enum n vs ∧
      split = .onTag shape.variants.length) ∨
    (∃ u i ps, p = .variant u i ps ∧ (∀ n vs, shape ≠ .enum n vs) ∧ split = .onFields) ∨
    (∃ v, p = .lit v ∧ onlyLiterals column = true ∧ isSwitchable v = true ∧ split = .onValue) ∨
    ∃ test, IsTest p ∧ split = .byTest test ∧ ∀ {Θ : Typing} {L τ t}, Suits Θ L τ p → Θ.Proper τ t →
        (∃ b, Θ.Is b τ) ∧ test? Θ.pool t test = some (passes t p) := by
  cases p with
  | variant u i ps =>
    cases shape with
    | enum n vs => exact .inl ⟨u, i, ps, n, vs, rfl, rfl, (ok.inj h).symm⟩
    | _ => exact .inr (.inl ⟨u, i, ps, rfl, nofun, (ok.inj h).symm⟩)
  | lit v =>
    have h := ok.inj h
    split at h
    · next hv =>
      rw [Bool.and_eq_true] at hv
      exact .inr (.inr (.inl ⟨v, rfl, hv.1, hv.2, h.symm⟩))
    · refine .inr (.inr (.inr ⟨.lit v, .inl ⟨v, rfl⟩, h.symm, ?_⟩))
      intro Θ L τ t hp ht
      cases hp with
      | lit hv _ => exact ⟨⟨_, hv⟩, test?_lit hv ht⟩
  | range low high =>
    refine .inr (.inr (.inr ⟨.range low high, .inr ⟨low, high, rfl⟩, (ok.inj h).symm, ?_⟩))
    intro Θ L τ t hp ht
    cases hp with
    | range hr => exact ⟨⟨_, hr⟩, test?_range hr ht⟩
  | _ => cases h

-- -------------------------------------------------------------- one column

/-- Where the compilation of a match stands: rows of patterns for the types of
occurrences, and the trees that stand there. -/
structure Situation (Θ : Typing) (L : Literal → Prop) (root : Tree) (occs : List Occurrence)
    (ts : List Tree) (rows : List Row) : Prop where
  suit : RowsSuit Θ L occs rows
  shows : Shows Θ root occs ts
  seen : ∀ r ∈ rows, Seen root r
  sorted : Sorted rows

/-- What is compiled with some steps left tries the ways of its matrix. -/
def TriesWithin (Θ : Typing) (L : Literal → Prop) (guarded : List Bool) (root : Tree)
    (steps : Nat) : Prop :=
  ∀ {rows occs ts tree}, Match.compileWithin Θ.pool guarded steps rows occs = .ok tree →
    Situation Θ L root occs ts rows → Tries Θ.pool guarded root ts rows tree

variable {o : Occurrence} {steps : Nat} {column : List Pattern}

namespace Situation

section

variable (h : Situation Θ L root occs ts rows)
include h

theorem width {r : Row} (hr : r ∈ rows) :
    r.patterns.length = occs.length :=
  (h.suit r hr).length_eq

theorem length : ∀ r ∈ rows, r.patterns.length = ts.length :=
  fun _ hr => (h.width hr).trans h.shows.length_eq

/-- Rows that match in the same ways, at other occurrences. -/
theorem next {occs' : List Occurrence}
    (hk : Keeps root ts rows us rows') (hf : RowsSuit Θ L occs' rows')
    (hs : Shows Θ root occs' us) : Situation Θ L root occs' us rows' :=
  ⟨hf, hs, hk.seen h.seen, hk.sorted h.sorted⟩

/-- A column is dropped. -/
theorem drop
    (hk : Keeps root ts rows (splice ts col []) rows')
    (hf : RowsSuit Θ L (splice occs col []) rows') :
    Situation Θ L root (splice occs col []) (splice ts col []) rows' :=
  h.next hk hf (h.shows.splice .nil)

/-- The patterns of a column suit the type of its occurrence. -/
theorem pattern (ho : occs[col]? = some o) :
    Column rows col (Suits Θ L o.type) :=
  fun r hr _ hp => (h.suit r hr).pattern ho hp

end

end Situation

/-- All numbers below a bound are among as many different ones. -/
theorem mem_of_length_eq {xs : List Int} {n k : Nat} (hnodup : xs.Nodup)
    (hrange : ∀ x ∈ xs, ∃ i < n, x = (i : Int)) (hlen : xs.length = n) (hk : k < n) :
    (k : Int) ∈ xs := by
  have hsub : xs.toFinset ⊆ (Finset.range n).image (Nat.cast : Nat → Int) := by
    intro x hx
    obtain ⟨i, hi, rfl⟩ := hrange x (List.mem_toFinset.1 hx)
    exact Finset.mem_image_of_mem _ (Finset.mem_range.2 hi)
  have hcard : ((Finset.range n).image (Nat.cast : Nat → Int)).card ≤ xs.toFinset.card := by
    rw [toFinset_card_of_nodup hnodup, hlen]
    exact Finset.card_image_le.trans (Finset.card_range n).le
  rw [← List.mem_toFinset, Finset.eq_of_subset_of_card_le hsub hcard]
  exact Finset.mem_image_of_mem _ (Finset.mem_range.2 hk)

theorem mem_truth_values {xs : List Int64} (hnodup : xs.Nodup)
    (hlen : xs.length = 2) (hxs : ∀ x ∈ xs, x = 0 ∨ x = 1) (hn : n = 0 ∨ n = 1) : n ∈ xs := by
  obtain ⟨x, y, rfl⟩ := length_eq_two.1 hlen
  have hxy : x ≠ y := by simpa using hnodup
  have hx := hxs x (by simp)
  have hy := hxs y (by simp)
  grind

theorem switchValue_bool (hbool : Θ.Is .bool τ) (hfit : Suits Θ L τ (.lit v))
    (h : switchValue v = .ok n) : n = 0 ∨ n = 1 := by
  cases hfit with
  | lit hv _ =>
    have hkind := TypeDef.builtin.inj (some.inj (hv.symm.trans hbool))
    cases v with
    | bool b =>
      rw [← ok.inj h]
      cases b
      · exact .inl rfl
      · exact .inr rfl
    | _ => cases hkind

/-- What is known of a column whose type has fields: patterns ask for variants
of the type, and a value is of one variant alone. -/
theorem column_variants (hsize : Numberable Θ.pool) (h : Situation Θ L root occs ts rows)
    (hnormal : ∀ r ∈ rows, ∀ p ∈ r.patterns, Normal p) (ho : occs[col]? = some o)
    (ht : Θ.Proper o.type t)
    (hτs : Θ.pool.fields o.type variant = .ok τs) (hv : isVariant t variant = true) :
    Column rows col fun p => p = .wild ∨ ∃ u i fields, p = .variant u i fields ∧
      (isVariant t i = true → i = variant) ∧ (i = variant → fields.length = τs.length) := by
  intro r hr p hp
  have hfit := h.pattern ho r hr p hp
  have hn := hnormal r hr p (mem_of_getElem? hp)
  rcases pattern_of_fields hτs hn hfit with rfl | ⟨u, i, fields, τs', rfl, hi, hlen⟩
  · exact .inl rfl
  · refine .inr ⟨u, i, fields, rfl, fun hvi => isVariant_unique hsize ht hi hτs hvi hv, ?_⟩
    rintro rfl
    rw [hτs] at hi
    rw [hlen, ok.inj hi]

/-- Splitting a column into the fields of the variant that its value has. -/
theorem tries_variant (hsize : Numberable Θ.pool) (ih : TriesWithin Θ L guarded root steps)
    (h : Situation Θ L root occs ts rows)
    (hnormal : ∀ r ∈ rows, ∀ p ∈ r.patterns, Normal p) (ho : occs[col]? = some o)
    (htcol : ts[col]? = some t) (hlook : look root o.path = some t) (ht : Θ.Proper o.type t)
    (hτs : Θ.pool.fields o.type variant = .ok τs) (hv : isVariant t variant = true)
    (hrows : specialize rows col (fieldTypes Θ.pool o variant).length variant = .ok rows')
    (htree : Match.compileWithin Θ.pool guarded steps rows'
      (expandOccurrences occs col o variant (fieldTypes Θ.pool o variant)) = .ok tree) :
    Tries Θ.pool guarded root ts rows tree := by
  have hsuit := suits_kept.specialize h.suit ho hrows
  rw [fieldTypes_of_fields hτs] at hrows htree hsuit
  have hkeeps : Keeps root ts rows (splice ts col (t.children τs.length)) rows' :=
    specialize_keeps hrows h.length htcol hv (column_variants hsize h hnormal ho ht hτs hv)
  exact (ih htree (h.next hkeeps hsuit
    (h.shows.splice (.fields hlook ht hτs hv)))).of_keeps hkeeps

theorem tries_tag (hsize : Numberable Θ.pool) (ih : TriesWithin Θ L guarded root steps)
    (h : Situation Θ L root occs ts rows)
    (hnormal : ∀ r ∈ rows, ∀ p ∈ r.patterns, Normal p) (ho : occs[col]? = some o)
    {n : String} {vs : Option (List Variant)}
    (hshape : Θ.pool.shape? o.type = some (.enum n vs)) {j : Int} {js : List TypeId}
    (hj : Θ.pool.fields o.type j = .ok js) (hcolumn : rows.mapM (·.column col) = .ok column)
    {cases : List (Int64 × Match.Tree)} {default : Option Match.Tree}
    (hcases : (testedVariants column).mapM (fun variant => do
      let types := fieldTypes Θ.pool o variant
      let rows ← orFault (specialize rows col types.length variant)
      let tree ← Match.compileWithin Θ.pool guarded steps rows
        (expandOccurrences occs col o variant types)
      return (Int64.ofInt variant, tree)) = .ok cases)
    (hdefault : (testedVariants column).length =
        (TypeDef.enum n vs).variants.length ∨
      ∃ rows' tree, defaults rows col = .ok rows' ∧
        Match.compileWithin Θ.pool guarded steps rows' (splice occs col []) = .ok tree ∧
        default = some tree) :
    Tries Θ.pool guarded root ts rows (.switch o true cases default) := by
  obtain ⟨t, htcol, hlook, ht⟩ := h.shows.get ho
  obtain ⟨k, hk, hvk, hswitch⟩ := exists_variant hshape ht
  have hbound := hsize _ _ _ hshape
  -- the variants that are tested are variants of the type
  have htested : ∀ i ∈ testedVariants column, ∃ τs, Θ.pool.fields o.type i = .ok τs := by
    intro i hi
    obtain ⟨u, ps, hmem⟩ := mem_testedVariants.1 hi
    obtain ⟨r, hr, hp⟩ := (mem_column hcolumn).1 hmem
    have hfit := h.pattern ho r hr _ hp
    cases hfit with
    | variant hf _ => exact ⟨_, hf⟩
  have hunique : ∀ i τs, Θ.pool.fields o.type i = .ok τs → isVariant t i = true →
      i = (k : Int) := by
    intro i τs hi hvi
    obtain ⟨τs', hτs'⟩ := Typing.fields_of_lt hshape hk
    exact isVariant_unique hsize ht hi hτs' hvi hvk
  have hfind := @find?_mapM _ _ _ Int64.ofInt (k : Int) _ _ hcases ?_ ?_
  · by_cases hmem : (k : Int) ∈ testedVariants column
    · obtain ⟨c, hrun, hc⟩ := hfind.1 hmem
      obtain ⟨rows', hrows, hrun⟩ := bind_ok hrun
      obtain ⟨tree, htree, rfl⟩ := bind_pure_ok hrun
      obtain ⟨τs, hτs⟩ := htested _ hmem
      refine (tries_variant hsize ih h hnormal ho htcol hlook ht hτs hvk
        (Match.orFault_ok hrows) htree).congr ?_
      rw [leaves_switch hlook hswitch, hc]
    · rcases hdefault with hlen | ⟨rows', tree, hrows, htree, rfl⟩
      · refine absurd (mem_of_length_eq (nodup_eraseDups _ le_rfl) ?_ hlen hk) hmem
        intro i hi
        obtain ⟨τs, hτs⟩ := htested i hi
        exact Typing.variant_lt hshape hτs
      · have hkeeps : Keeps root ts rows (splice ts col []) rows' := by
          refine defaults_keeps hrows h.length htcol ?_
          intro r hr p hp
          have hfit := h.pattern ho r hr p hp
          rcases pattern_of_fields hj (hnormal r hr p (mem_of_getElem? hp)) hfit with
            rfl | ⟨u, i, fields, τs, rfl, hi, -⟩
          · exact .inl rfl
          · refine .inr ?_
            rw [weight_variant, if_neg]
            intro hvi
            obtain rfl := hunique i τs hi hvi
            exact hmem (mem_testedVariants.2 ⟨u, fields, (mem_column hcolumn).2 ⟨r, hr, hp⟩⟩)
        have hrest := ih htree (h.drop hkeeps (suits_kept.defaults h.suit hrows))
        refine (hrest.of_keeps hkeeps).congr ?_
        rw [leaves_switch hlook hswitch, hfind.2 hmem]
        rfl
  · intro i c hrun
    obtain ⟨_, -, hrun⟩ := bind_ok hrun
    obtain ⟨_, -, hrun⟩ := bind_ok hrun
    rw [← ok.inj hrun]
  · intro i hi heq
    obtain ⟨τs, hτs⟩ := htested i hi
    obtain ⟨i, hi', rfl⟩ := Typing.variant_lt hshape hτs
    exact ofInt_inj (by omega) (by omega) heq

section

variable (ih : TriesWithin Θ L guarded root steps) (h : Situation Θ L root occs ts rows)
include ih h

/-- A switch on the value of an integer, a boolean or a character. -/
theorem tries_value (ho : occs[col]? = some o)
    (hcolumn : rows.mapM (·.column col) = .ok column)
    (hlits : onlyLiterals column = true) {tested : List Int64}
    (htested : testedValues column = .ok tested)
    {cases : List (Int64 × Match.Tree)} {default : Option Match.Tree}
    (hcases : tested.mapM (fun value => do
      let rows ← orFault (whereValue rows col value)
      let tree ← Match.compileWithin Θ.pool guarded steps rows (splice occs col [])
      return (value, tree)) = .ok cases) (hdefault : Θ.Is .bool o.type ∧ tested.length = 2 ∨
      ∃ rows' tree, defaults rows col = .ok rows' ∧
        Match.compileWithin Θ.pool guarded steps rows' (splice occs col []) = .ok tree ∧
        default = some tree) :
    Tries Θ.pool guarded root ts rows (.switch o false cases default) := by
  obtain ⟨t, htcol, hlook, ht⟩ := h.shows.get ho
  obtain ⟨hnodup, hin, hout⟩ := testedValues_ok htested
  have hpattern : Column rows col fun p => p = .wild ∨ ∃ v, p = .lit v := by
    intro r hr p hp
    have hlit := all_eq_true.1 hlits p ((mem_column hcolumn).2 ⟨r, hr, hp⟩)
    cases p with
    | wild => exact .inl rfl
    | lit v => exact .inr ⟨v, rfl⟩
    | _ => cases hlit
  have hswitch : switchOn? false t = some (toInt t) := rfl
  have hfind := @find?_mapM _ _ _ id (toInt t) _ _ hcases ?_ ?_
  · by_cases hmem : toInt t ∈ tested
    · obtain ⟨c, hrun, hc⟩ := hfind.1 hmem
      obtain ⟨rows', hrows, hrun⟩ := bind_ok hrun
      obtain ⟨tree, htree, rfl⟩ := bind_pure_ok hrun
      have hrows := Match.orFault_ok hrows
      have hkeeps : Keeps root ts rows (splice ts col []) rows' := by
        refine whereValue_keeps hrows h.length htcol fun r hr p hp => ?_
        exact (hpattern r hr p hp).imp_right fun ⟨v, hv⟩ =>
          ⟨v, hv, fun n hn => switchValue_iff hn⟩
      have hrest := ih htree (h.drop hkeeps (suits_kept.whereValue h.suit hrows))
      refine (hrest.of_keeps hkeeps).congr ?_
      change cases.find? (·.1 = toInt t) = _ at hc
      rw [leaves_switch hlook hswitch, hc]
    · rcases hdefault with ⟨hbool, hlen⟩ | ⟨rows', tree, hrows, htree, rfl⟩
      · -- both truth values are tested
        refine absurd (mem_truth_values hnodup hlen ?_ ?_) hmem
        · intro n hn
          obtain ⟨v, hv, hvalue⟩ := hout n hn
          obtain ⟨r, hr, hp⟩ := (mem_column hcolumn).1 hv
          have hfit := h.pattern ho r hr _ hp
          exact switchValue_bool hbool hfit hvalue
        · have hrange := (Typing.proper_iff.1 ht).2.1 _ hbool
          exact hrange.imp (fun hl => by simp [toInt, hl]) fun hl => by simp [toInt, hl]
      · have hkeeps : Keeps root ts rows (splice ts col []) rows' := by
          refine defaults_keeps hrows h.length htcol fun r hr p hp => ?_
          rcases hpattern r hr p hp with rfl | ⟨v, rfl⟩
          · exact .inl rfl
          · obtain ⟨n, hn, hv⟩ := hin v ((mem_column hcolumn).2 ⟨r, hr, hp⟩)
            refine .inr ?_
            rw [weight_lit, if_neg]
            intro hlit
            exact hmem ((switchValue_iff hv).2 hlit ▸ hn)
        have hrest := ih htree (h.drop hkeeps (suits_kept.defaults h.suit hrows))
        refine (hrest.of_keeps hkeeps).congr ?_
        have hnone := hfind.2 hmem
        change cases.find? (·.1 = toInt t) = _ at hnone
        rw [leaves_switch hlook hswitch, hnone]
        rfl
  · intro n c hrun
    obtain ⟨_, -, hrun⟩ := bind_ok hrun
    obtain ⟨_, -, hrun⟩ := bind_ok hrun
    rw [← ok.inj hrun]
    rfl
  · exact fun n _ heq => heq

theorem tries_test
    (hnormal : ∀ r ∈ rows, ∀ p ∈ r.patterns, Normal p) (ho : occs[col]? = some o)
    (htcol : ts[col]? = some t) (hlook : look root o.path = some t)
    {test : Test} {b : Builtin} {holds fails : List Row}
    {thenTree elseTree : Match.Tree} (hb : Θ.Is b o.type)
    (hfit : Suits Θ L o.type p) (htest : test? Θ.pool t test = some (passes t p))
    (hholds : whereHolds rows col p = .ok holds) (hfails : whereFails rows col p = .ok fails)
    (hthen : Match.compileWithin Θ.pool guarded steps holds occs = .ok thenTree)
    (helse : Match.compileWithin Θ.pool guarded steps fails occs = .ok elseTree) :
    Tries Θ.pool guarded root ts rows (.test o test thenTree elseTree) := by
  have hleaves : leaves Θ.pool root (.test o test thenTree elseTree) =
      if passes t p then leaves Θ.pool root thenTree else leaves Θ.pool root elseTree := by
    rw [leaves, hlook, bind_eq_bind, bind_some, htest]
    rfl
  have hpattern : Column rows col fun q => q = .wild ∨ IsTest q ∧ Suits Θ L o.type q := by
    intro r hr q hq
    have hqfit := h.pattern ho r hr q hq
    exact (pattern_of_builtin hb (hnormal r hr q (mem_of_getElem? hq)) hqfit).imp_right
      fun hq => ⟨hq, hqfit⟩
  by_cases hpass : passes t p = true
  · have hkeeps : Keeps root ts rows ts holds := by
      refine whereHolds_keeps hholds h.length htcol fun r hr q hq => ?_
      refine (hpattern r hr q hq).imp_right ?_
      rintro ⟨hqtest, hqfit⟩
      rw [weight_test hqtest]
      refine ⟨fun hcovers => ?_, fun hdisjoint => ?_⟩
      · rw [if_pos (passes_of_covers hcovers hpass)]
      · rw [not_passes_of_disjoint hqfit hfit hdisjoint hpass]
        rfl
    have hnext := ih hthen (h.next hkeeps (suits_kept.whereHolds h.suit ho hholds) h.shows)
    refine (hnext.of_keeps hkeeps).congr ?_
    rw [hleaves, if_pos hpass]
  · have hkeeps : Keeps root ts rows ts fails := by
      refine whereFails_keeps hfails h.length htcol fun r hr q hq => ?_
      refine (hpattern r hr q hq).imp_right ?_
      rintro ⟨hqtest, -⟩ hcovers
      rw [weight_test hqtest, if_neg fun hq => hpass (passes_of_covers hcovers hq)]
    have hnext := ih helse (h.next hkeeps
      (fun r hr => h.suit r (mem_of_whereFails hfails hr)) h.shows)
    refine (hnext.of_keeps hkeeps).congr ?_
    rw [hleaves, if_neg hpass]

end

-- --------------------------------------------------------- the whole matrix

/-- A compiled matrix tries the ways in which its rows match. -/
theorem compileWithin_tries (hsize : Numberable Θ.pool) : TriesWithin Θ L guarded root steps := by
  induction steps with
  | zero =>
    intro rows occs ts tree h
    cases h
  | succ steps ih =>
    intro rows₀ occs ts tree h hs₀
    rw [Match.compileWithin] at h
    obtain ⟨rows, hrows, h⟩ := bind_ok h
    have hrows := Match.orFault_ok hrows
    have hkeeps := normalize_keeps hrows hs₀.shows fun r hr => hs₀.width hr
    have hnormal := normalize_normal hrows
    have hs := hs₀.next hkeeps (suits_kept.normalize hs₀.suit hrows) hs₀.shows
    refine Tries.of_keeps ?_ hkeeps
    cases rows with
    | nil =>
      cases h
      exact ⟨[], rfl, rfl, .nil, fun c hc => absurd hc not_mem_nil⟩
    | cons first rest =>
      have hfirst := mem_cons_self (a := first) (l := rest)
      obtain ⟨picked, hpick, h⟩ := bind_ok h
      cases picked with
      | none =>
        -- the first row tests nothing: its arm is tried
        have htail : Situation Θ L root occs ts rest :=
          ⟨fun r hr => hs.suit r (.tail _ hr), hs.shows,
            fun r hr => hs.seen r (.tail _ hr),
            (pairwise_cons.1 hs.sorted).2⟩
        have hwild := (pickColumn_ok (Match.orFault_ok hpick)).1 rfl
        have hleaf {next : Option Match.Tree} :=
          @tries_leaf Θ.pool guarded root ts first rest next hwild (hs.length _ hfirst)
            (hs.seen _ hfirst) hs.sorted
        dsimp only at h
        split at h
        · next hguard =>
          obtain ⟨next, hnext, rfl⟩ := bind_pure_ok h
          exact hleaf (.inl ⟨hguard, next, rfl, ih hnext htail⟩)
        · next hguard =>
          cases h
          exact hleaf (.inr ⟨Bool.eq_false_iff.2 hguard, rfl⟩)
      | some col =>
        obtain ⟨o, hocc, h⟩ := bind_ok h
        obtain ⟨shape, hshape, h⟩ := bind_ok h
        obtain ⟨column, hcolumn, h⟩ := bind_ok h
        obtain ⟨p, hp, h⟩ := bind_ok h
        obtain ⟨split, hsplit, h⟩ := bind_ok h
        have hocc := occurrenceAt_ok hocc
        have hshape := shapeAt_ok hshape
        have hcolumn := Match.orFault_ok hcolumn
        have hfit := hs.pattern hocc _ hfirst p (Row.column_ok (Match.orFault_ok hp))
        obtain ⟨t, htcol, hlook, ht⟩ := hs.shows.get hocc
        rcases splitOf_cases hsplit with ⟨u, i, ps, n, vs, rfl, rfl, rfl⟩ |
          ⟨u, i, ps, rfl, hshape', rfl⟩ | ⟨v, rfl, hlits, _, rfl⟩ | ⟨test, _, rfl, htest⟩
        · -- an enum is switched on by its tag
          obtain ⟨cases, hcases, h⟩ := bind_ok h
          cases hfit with
          | variant hj _ =>
            have htag := @tries_tag Θ L guarded root ts _ occs col o steps column hsize
              ih hs hnormal hocc n vs hshape _ _ hj hcolumn cases
            split at h
            · next hlen =>
              cases h
              exact htag hcases (.inl hlen)
            · obtain ⟨rows', hrows', h⟩ := bind_ok h
              obtain ⟨next, hnext, rfl⟩ := bind_pure_ok h
              exact htag hcases (.inr ⟨rows', next, Match.orFault_ok hrows', hnext, rfl⟩)
        · -- a record or a tuple is not tested at all
          obtain ⟨rows', hrows', hnext⟩ := bind_ok h
          cases hfit with
          | variant hj _ =>
            obtain ⟨rfl, hv⟩ := single_variant hshape hshape' hj ht
            exact tries_variant hsize ih hs hnormal hocc htcol hlook ht hj hv
              (Match.orFault_ok hrows') hnext
        · -- integers, booleans and characters are switched on by value
          obtain ⟨tested, htested, h⟩ := bind_ok h
          obtain ⟨cases, hcases, h⟩ := bind_ok h
          have hvalue := @tries_value Θ L guarded root ts _ occs col o steps column
            ih hs hocc hcolumn hlits tested (Match.orFault_ok htested) cases
          split at h
          · next hcond =>
            rw [Bool.and_eq_true, decide_eq_true_eq, decide_eq_true_eq] at hcond
            cases h
            refine hvalue hcases (.inl ⟨?_, hcond.2⟩)
            rw [hcond.1]
            exact Θ.builtins.bool
          · obtain ⟨rows', hrows', h⟩ := bind_ok h
            obtain ⟨next, hnext, rfl⟩ := bind_pure_ok h
            exact hvalue hcases (.inr ⟨rows', next, Match.orFault_ok hrows', hnext, rfl⟩)
        · -- anything else is tested
          obtain ⟨holds, hholds, h⟩ := bind_ok h
          obtain ⟨fails, hfails, h⟩ := bind_ok h
          obtain ⟨thenTree, hthen, h⟩ := bind_ok h
          obtain ⟨elseTree, helse, rfl⟩ := bind_pure_ok h
          obtain ⟨⟨b, hb⟩, htest⟩ := htest hfit ht
          exact tries_test ih hs hnormal hocc htcol hlook hb hfit htest
            (Match.orFault_ok hholds) (Match.orFault_ok hfails) hthen helse

-- ======== match

/-- The matrix of a match has the ways of its patterns. -/
theorem tally_candidates (patterns : List Pattern) :
    matrixTally root [root] (rowsOf patterns) = tally (candidates patterns root) := by
  rw [matrixTally, rowsOf, tally, candidates, List.map_map]
  induction patterns.zipIdx with
  | nil => rfl
  | cons a rest ih =>
    obtain ⟨p, i⟩ := a
    rw [map_cons, sum_cons, ih, flatMap_cons, map_append, sum_append, List.map_map]
    congr 1
    have hone : weightAll [root] [p] = weight root p := by
      rw [weightAll_cons, weightAll_nil, mul_one]
    show X (.inl i) * product (bound root []) * weightAll [root] [p] = _
    rw [hone, weight, count, ← List.sum_map_mul_left]
    simp [Function.comp_def, bound, product]

/-- Arms are numbered in order. -/
theorem zipIdx_sorted (patterns : List Pattern) :
    patterns.zipIdx.Pairwise fun a b => a.2 ≤ b.2 := by
  have hmap : (patterns.zipIdx.map Prod.snd).Pairwise (· ≤ ·) := by
    rw [zipIdx_map_snd]
    exact pairwise_le_range'
  exact pairwise_map.1 hmap

/-- The rows of a match are those of its arms in order. -/
theorem rowsOf_sorted (patterns : List Pattern) : Sorted (rowsOf patterns) :=
  pairwise_map.2 (zipIdx_sorted patterns)

variable {type : TypeId}

/-- The tree of a match tries the ways in which its arms match, up to the first
arm without a guard. -/
theorem compile_lists (hsize : Numberable Θ.pool) {patterns : List Pattern}
    (h : Match.compile Θ.pool type patterns guarded = .ok tree)
    (hp : ∀ p ∈ patterns, Suits Θ L type p) (ht : Θ.Proper type root) :
    ∃ cs, Lists patterns root cs ∧ leaves Θ.pool root tree = some (cut guarded cs) := by
  have hs : Situation Θ L root [⟨[], type⟩] [root] (rowsOf patterns) := by
    refine ⟨rowsOf_suit hp, .cons ⟨rfl, ht⟩ .nil, ?_, rowsOf_sorted patterns⟩
    intro r hr b hb
    obtain ⟨_, _, rfl⟩ := mem_map.1 hr
    cases hb
  obtain ⟨cs, hleaves, htally, hsorted, -⟩ := compileWithin_tries hsize h hs
  exact ⟨cs, ⟨unordered_perm (htally.trans (tally_candidates patterns)), hsorted⟩, hleaves⟩
end RefCount.Meaning
