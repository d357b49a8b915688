/-
Splitting a column keeps the ways in which a matrix matches. What is known of
the tree in the column decides which rows are left: those of its variant, of
its value, or those that a test does not rule out. A row that is dropped has
no way to match, and a row that stays matches what is left in the same ways.

# Tests

Literals and ranges of one type are compared by `covers` and `disjoint`.
Floating-point literals are compared with each other and with the value by
`==`; that this is right rests on its being symmetric and transitive, though
not reflexive.
-/
import RefCount.Proofs.Meaning.Tally

namespace RefCount.Meaning

open Machine (Tree)
open Match (Row Occurrence)
open Plain (toInt toFloat)
open Option Except
open Match hiding Tree

variable {Θ : Typing} {L : Literal → Prop} {root t : Tree} {ts us : List Tree}
  {rows rows' : List Row} {col : Nat}
variable {r : Row} {p test a b : Pattern} {x y : Float}

-- ======== rows by rows

/-- A row is left out only if it has no way to match; one that takes its place
matches in the same ways. -/
def Kept (ts us : List Tree) (r : Row) : Option Row → Prop
  | none => weightAll ts r.patterns = 0
  | some r' => r'.arm = r.arm ∧ r'.bindings = r.bindings ∧
      weightAll us r'.patterns = weightAll ts r.patterns

/-- Rows that each leave one row with the same ways, or none if there are no
ways. -/
theorem Keeps.filterMap {g : Row → Pattern → Except Fault (Option Row)}
    (h : (rows.mapM (fun r => r.column col >>= g r) >>=
      fun os => pure (os.filterMap id)) = .ok rows')
    (hrow : ∀ r ∈ rows, ∀ p o, r.patterns[col]? = some p → g r p = .ok o → Kept ts us r o) :
    Keeps root ts rows us rows' := by
  obtain ⟨os, hos, rfl⟩ := bind_pure_ok h
  have hflat (os : List (Option Row)) :
      os.filterMap id = (os.map Option.toList).flatten := by
    induction os with
    | nil => rfl
    | cons o os ih =>
      cases o with
      | none => exact ih
      | some r => exact congrArg (r :: ·) ih
  rw [hflat]
  refine .flatten ?_
  have hall := mapM_ok hos
  rw [List.forall₂_map_right_iff, List.forall₂_iff_get]
  obtain ⟨hlen, hget⟩ := List.forall₂_iff_get.1 hall
  refine ⟨hlen, fun i hi hi' => ?_⟩
  obtain ⟨p, hp, hrun⟩ := bind_ok (hget i hi hi')
  replace hp := Row.column_ok hp
  have hmem := List.get_mem rows ⟨i, hi⟩
  generalize rows.get ⟨i, hi⟩ = r at hp hrun hmem ⊢
  generalize os.get ⟨i, hi'⟩ = o at hrun ⊢
  have hkept := hrow r hmem p o hp hrun
  cases o with
  | none =>
    refine ⟨?_, fun r' hr' => nomatch hr'⟩
    rw [rowTally, show weightAll ts r.patterns = 0 from hkept, mul_zero]
    rfl
  | some r' =>
    obtain ⟨harm, hbind, hweight⟩ := hkept
    refine ⟨?_, fun r'' hr'' => ?_⟩
    · simp [rowTally, harm, hbind, hweight]
    · obtain rfl := List.mem_singleton.1 hr''
      refine ⟨harm, fun hs => ?_⟩
      rw [Seen, hbind]
      exact hs

section

variable (hlen : r.patterns.length = ts.length) (ht : ts[col]? = some t)
  (hp : r.patterns[col]? = some p)
include hlen ht hp

/-- A row with a column replaced has the same ways if the column has. -/
theorem weightAll_replace {vs : List Tree} {qs : List Pattern} (hq : vs.length = qs.length)
    (hw : weightAll vs qs = weight t p) : weightAll (splice ts col vs) (r.splice col qs).patterns =
      weightAll ts r.patterns := by
  rw [Row.splice, weightAll_splice hlen.symm hq, weightAll_column hlen.symm ht hp, hw]

/-- A row whose column does not match has no ways. -/
theorem weightAll_eq_zero (hw : weight t p = 0) : weightAll ts r.patterns = 0 := by
  rw [weightAll_column hlen.symm ht hp, hw, zero_mul]

end

/-- A column that has all that is asked of the rows of a matrix. -/
def Column (rows : List Row) (col : Nat) (P : Pattern → Prop) : Prop :=
  ∀ r ∈ rows, ∀ p, r.patterns[col]? = some p → P p

/-- The rows that a variant leaves have the ways of the matrix for a value of
the variant. -/
theorem specialize_keeps {arity : Nat} {variant : Int}
    (h : specialize rows col arity variant = .ok rows')
    (hlen : ∀ r ∈ rows, r.patterns.length = ts.length) (ht : ts[col]? = some t)
    (hv : isVariant t variant = true)
    (hcol : Column rows col fun p => p = .wild ∨ ∃ u i fields, p = .variant u i fields ∧
      (isVariant t i = true → i = variant) ∧ (i = variant → fields.length = arity)) :
    Keeps root ts rows (splice ts col (t.children arity)) rows' := by
  refine .filterMap h fun r hr p o hp hrun => ?_
  rcases hcol r hr p hp with rfl | ⟨u, i, fields, rfl, hi, hfields⟩
  · cases hrun
    refine ⟨rfl, rfl, weightAll_replace (hlen r hr) ht hp (by simp [Tree.children]) ?_⟩
    rw [weight_wild]
    exact weightAll_wild (by simp [Tree.children]) fun p hp => List.eq_of_mem_replicate hp
  · cases hrun
    split
    · next heq =>
      subst heq
      refine ⟨rfl, rfl, weightAll_replace (hlen r hr) ht hp ?_ ?_⟩
      · simp [Tree.children, hfields rfl]
      · rw [weight_variant, if_pos hv, hfields rfl]
    · next hne =>
      refine weightAll_eq_zero (hlen r hr) ht hp ?_
      rw [weight_variant, if_neg fun hiv => hne (hi hiv)]

/-- The rows that test nothing in a column have the ways of the matrix if no
test of the column succeeds. -/
theorem defaults_keeps (h : defaults rows col = .ok rows')
    (hlen : ∀ r ∈ rows, r.patterns.length = ts.length) (ht : ts[col]? = some t)
    (hcol : Column rows col fun p => p = .wild ∨ weight t p = 0) :
    Keeps root ts rows (splice ts col []) rows' := by
  refine .filterMap h fun r hr p o hp hrun => ?_
  cases hrun
  split
  · next hwild =>
    obtain rfl := isWild_iff.1 hwild
    refine ⟨rfl, rfl, weightAll_replace (hlen r hr) ht hp rfl ?_⟩
    rw [weight_wild, weightAll_nil]
  · next hwild =>
    rcases hcol r hr p hp with rfl | hw
    · exact absurd rfl hwild
    · exact weightAll_eq_zero (hlen r hr) ht hp hw

/-- The rows that a value leaves have the ways of the matrix for the value. -/
theorem whereValue_keeps {value : Int64} (h : whereValue rows col value = .ok rows')
    (hlen : ∀ r ∈ rows, r.patterns.length = ts.length) (ht : ts[col]? = some t)
    (hcol : Column rows col fun p => p = .wild ∨ ∃ v, p = .lit v ∧
      ∀ n, switchValue v = .ok n → (n = value ↔ isLiteral t v = true)) :
    Keeps root ts rows (splice ts col []) rows' := by
  refine .filterMap h fun r hr p o hp hrun => ?_
  rcases hcol r hr p hp with rfl | ⟨v, rfl, hv⟩
  · cases hrun
    refine ⟨rfl, rfl, weightAll_replace (hlen r hr) ht hp rfl ?_⟩
    rw [weight_wild, weightAll_nil]
  · obtain ⟨n, hn, hrun⟩ := bind_ok hrun
    cases hrun
    split
    · next heq =>
      refine ⟨rfl, rfl, weightAll_replace (hlen r hr) ht hp rfl ?_⟩
      rw [weight_lit, if_pos ((hv n hn).1 heq), weightAll_nil]
    · next hne =>
      refine weightAll_eq_zero (hlen r hr) ht hp ?_
      rw [weight_lit, if_neg fun hlit => hne ((hv n hn).2 hlit)]

/-- The rows that are left where a test succeeds have the ways of the matrix
for a value that passes it. -/
theorem whereHolds_keeps (h : whereHolds rows col test = .ok rows')
    (hlen : ∀ r ∈ rows, r.patterns.length = ts.length) (ht : ts[col]? = some t)
    (hcol : Column rows col fun p => p = .wild ∨ (covers p test = true → weight t p = 1) ∧
      (disjoint p test = true → weight t p = 0)) : Keeps root ts rows ts rows' := by
  refine .filterMap h fun r hr p o hp hrun => ?_
  cases hrun
  split
  · exact ⟨rfl, rfl, rfl⟩
  · next hwild =>
    rcases hcol r hr p hp with rfl | ⟨hone, hzero⟩
    · exact absurd rfl hwild
    split
    · next hcov =>
      have hnew : weightAll (splice ts col [t]) (r.splice col [.wild]).patterns =
          weightAll ts r.patterns :=
        weightAll_replace (hlen r hr) ht hp rfl (by simp [hone hcov])
      rw [splice_self ht] at hnew
      exact ⟨rfl, rfl, hnew⟩
    · split
      · next hdis => exact weightAll_eq_zero (hlen r hr) ht hp (hzero hdis)
      · exact ⟨rfl, rfl, rfl⟩

/-- The rows that are left where a test fails have the ways of the matrix for
a value that does not pass it. -/
theorem whereFails_keeps (h : whereFails rows col test = .ok rows')
    (hlen : ∀ r ∈ rows, r.patterns.length = ts.length) (ht : ts[col]? = some t)
    (hcol : Column rows col fun p => p = .wild ∨ (covers test p = true → weight t p = 0)) :
    Keeps root ts rows ts rows' := by
  refine .filterMap h fun r hr p o hp hrun => ?_
  cases hrun
  split
  · exact ⟨rfl, rfl, rfl⟩
  · next hcond =>
    simp only [Bool.or_eq_true, Bool.not_eq_true', not_or, Bool.not_eq_false] at hcond
    rcases hcol r hr p hp with rfl | hzero
    · exact absurd rfl hcond.1
    · exact weightAll_eq_zero (hlen r hr) ht hp (hzero hcond.2)

-- ======== tests

open Float.Model in
/-- Which numbers are equal: zeros, and a number and itself unless it is none. -/
theorem compare_eq_iff {a b : UnpackedFloat} : a.compare b = some .eq ↔
    (∃ s s', a = .zero s ∧ b = .zero s') ∨ (a = b ∧ a ≠ .notANumber) := by
  cases a with
  | notANumber => cases b <;> simp [UnpackedFloat.compare]
  | infinity s =>
    cases b with
    | infinity s' => cases s <;> cases s' <;> simp [UnpackedFloat.compare] <;> decide
    | _ => cases s <;> simp [UnpackedFloat.compare]
  | zero s =>
    cases b with
    | infinity s' => cases s' <;> simp [UnpackedFloat.compare]
    | finite s' m e h => cases s' <;> simp [UnpackedFloat.compare]
    | _ => simp [UnpackedFloat.compare]
  | finite s m e h =>
    cases b with
    | infinity s' => cases s' <;> simp [UnpackedFloat.compare]
    | notANumber => simp [UnpackedFloat.compare]
    | zero s' => cases s <;> simp [UnpackedFloat.compare]
    | finite s' m' e' h' =>
      cases s <;> cases s' <;> simp [UnpackedFloat.compare, Ordering.then_eq_eq, and_comm]

theorem float_beq_iff : (x == y) = true ↔
    (∃ s s', x.toModel.unpack = .zero s ∧ y.toModel.unpack = .zero s') ∨
      (x.toModel.unpack = y.toModel.unpack ∧ x.toModel.unpack ≠ .notANumber) := by
  have h : (x == y) = (x.toModel.unpack.compare y.toModel.unpack == some .eq) := rfl
  rw [h, beq_iff_eq, compare_eq_iff]

theorem float_beq_symm (h : (x == y) = true) : (y == x) = true := by
  rw [float_beq_iff] at h ⊢
  rcases h with ⟨s, s', hx, hy⟩ | ⟨hxy, hx⟩
  · exact .inl ⟨s', s, hy, hx⟩
  · exact .inr ⟨hxy.symm, hxy ▸ hx⟩

theorem float_beq_trans {z : Float} (hxy : (x == y) = true) (hyz : (y == z) = true) :
    (x == z) = true := by
  rw [float_beq_iff] at hxy hyz ⊢
  rcases hxy with ⟨s, s', hx, hy⟩ | ⟨hxy, hx⟩
  · rcases hyz with ⟨_, s'', _, hz⟩ | ⟨hyz, _⟩
    · exact .inl ⟨s, s'', hx, hz⟩
    · exact .inl ⟨s, s', hx, hyz ▸ hy⟩
  · rcases hyz with ⟨s, s', hy, hz⟩ | ⟨hyz, _⟩
    · exact .inl ⟨s, s', hxy ▸ hy, hz⟩
    · exact .inr ⟨hxy.trans hyz, hx⟩

/-- Whether a tree passes the test that a literal or a range is. -/
def passes (t : Tree) : Pattern → Bool
  | .lit v => isLiteral t v
  | .range low high => low ≤ toInt t ∧ toInt t ≤ high
  | _ => false

/-- A pattern is a literal or a range. -/
def IsTest (p : Pattern) : Prop := (∃ v, p = .lit v) ∨ ∃ low high, p = .range low high

theorem weight_test (h : IsTest p) : weight t p = if passes t p then 1 else 0 := by
  rcases h with ⟨v, rfl⟩ | ⟨low, high, rfl⟩
  · exact weight_lit
  · rw [weight_range, passes]
    simp only [decide_eq_true_eq]

/-- Integers and characters are tested by their range. -/
theorem passes_interval {low high : Int64} (h : interval? p = some (low, high)) :
    passes t p = true ↔ low ≤ toInt t ∧ toInt t ≤ high := by
  have hpoint {n : Int64} : toInt t = n ↔ n ≤ toInt t ∧ toInt t ≤ n :=
    ⟨fun h => h ▸ ⟨Int64.le_refl _, Int64.le_refl _⟩, fun h => Int64.le_antisymm h.2 h.1⟩
  cases p with
  | range a b =>
    cases h
    simp [passes]
  | lit v =>
    cases v with
    | int n =>
      cases h
      simpa [passes, isLiteral] using hpoint
    | char c =>
      cases h
      simpa [passes, isLiteral] using hpoint
    | _ => cases h
  | _ => cases h

/-- A value that passes a test passes every test that covers it. -/
theorem passes_of_covers (h : covers a b = true) (hb : passes t b = true) : passes t a = true := by
  unfold covers at h
  split at h
  · next alow ahigh blow bhigh ha hb' =>
    rw [passes_interval hb'] at hb
    rw [passes_interval ha]
    simp only [Bool.and_eq_true, decide_eq_true_eq] at h
    exact ⟨Int64.le_trans h.1 hb.1, Int64.le_trans hb.2 h.2⟩
  · split at h
    · next v w _ =>
      cases v <;> cases w <;>
        simp only [Literal.same, Bool.false_eq_true, beq_iff_eq, passes, isLiteral] at h hb ⊢
      case float.float x y => exact float_beq_trans hb (float_beq_symm h)
      all_goals
        subst h
        exact hb
    · cases h

/-- Numbers of the machine that are read from smaller ones are told apart. -/
theorem ofInt_inj {a b : Int} (ha : -2 ^ 63 ≤ a ∧ a < 2 ^ 63) (hb : -2 ^ 63 ≤ b ∧ b < 2 ^ 63)
    (h : Int64.ofInt a = Int64.ofInt b) : a = b := by
  have hint := congrArg Int64.toInt h
  rwa [Int64.toInt_ofInt_of_le ha.1 ha.2, Int64.toInt_ofInt_of_le hb.1 hb.2] at hint

/-- A value is that of one literal of a kind only. -/
theorem same_of_isLiteral {v w : Literal} (hkind : v.builtin = w.builtin)
    (hv : isLiteral t v = true) (hw : isLiteral t w = true) : v.same w = true := by
  cases v <;> cases w <;> cases hkind
  all_goals simp only [Literal.same, isLiteral, decide_eq_true_eq, beq_iff_eq] at hv hw ⊢
  case int.int n m => exact hv.symm.trans hw
  case float.float x y => exact float_beq_trans (float_beq_symm hv) hw
  case bool.bool b c =>
    rw [hv] at hw
    cases b <;> cases c <;> first | rfl | exact absurd hw (by decide)
  case char.char c d =>
    have hc := Int32.le_toInt c
    have hc' := Int32.toInt_lt c
    have hd := Int32.le_toInt d
    have hd' := Int32.toInt_lt d
    exact Int32.toInt_inj.1 (ofInt_inj (by omega) (by omega) (hv.symm.trans hw))
  case str.str s s' => exact some.inj (hv.symm.trans hw)

/-- A value that passes a test passes no test that is disjoint from it. -/
theorem not_passes_of_disjoint {τ : TypeId} (ha : Suits Θ L τ a) (hb : Suits Θ L τ b)
    (h : disjoint a b = true) (hpass : passes t b = true) : passes t a = false := by
  rw [Bool.eq_false_iff]
  intro hpass'
  unfold disjoint at h
  split at h
  · next alow ahigh blow bhigh ha' hb' =>
    rw [passes_interval hb'] at hpass
    rw [passes_interval ha'] at hpass'
    simp only [Bool.or_eq_true, decide_eq_true_eq] at h
    rcases h with h | h
    · exact Int64.lt_irrefl (Int64.lt_of_lt_of_le h (Int64.le_trans hpass.1 hpass'.2))
    · exact Int64.lt_irrefl (Int64.lt_of_lt_of_le h (Int64.le_trans hpass'.1 hpass.2))
  · split at h
    · next v w _ =>
      -- literals of one type are of one kind
      have hkind : v.builtin = w.builtin := by
        cases ha with
        | lit hv _ =>
          cases hb with
          | lit hw _ =>
            have heq := hv.symm.trans hw
            exact TypeDef.builtin.inj (some.inj heq)
      rw [same_of_isLiteral hkind hpass' hpass] at h
      cases h
    · cases h

end RefCount.Meaning
