/-
The compilation of a match ends on every matrix of documented patterns,
well-typed or not: with more steps than the matrix weighs, the steps do not run
out, and more of them change nothing.

Documented patterns stay documented when columns are replaced, and a documented
literal is equal to itself, so that a test covers itself; the other failures are
not about the steps (`Confines`).
-/
import RefCount.Proofs.Match.Total

namespace RefCount.Match

open List

-- ======== documented patterns

def Literal.isDocumented : Literal → Bool
  | .int _ | .bool _ | .char _ | .str _ => true
  | _ => false

mutual

/-- A pattern as programs write it: its literals are integers, booleans,
characters and strings, however wildcards, names, ranges, alternatives and
variants stand around them. -/
def documented : Pattern → Bool
  | .lit v => Literal.isDocumented v
  | .variant _ _ ps => allDocumented ps
  | .as _ p => documented p
  | .or ps => allDocumented ps
  | .missing => false
  | _ => true

def allDocumented : List Pattern → Bool
  | [] => true
  | p :: ps => documented p && allDocumented ps

end

theorem allDocumented_iff {ps : List Pattern} :
    allDocumented ps = true ↔ ∀ p ∈ ps, documented p = true := by
  induction ps with
  | nil => simp [allDocumented]
  | cons p ps ih => simp [allDocumented, ih]

mutual

/-- Every choice is a pattern of the same kinds. -/
theorem choices_documented {occ : Occurrence} : ∀ p : Pattern, documented p = true →
    ∀ c ∈ choices occ p, documented c.1 = true
  | .bind name, _, c, hc => by
    obtain rfl := mem_singleton.1 hc
    rfl
  | .as name p, hp, c, hc => by
    obtain ⟨c', hc', rfl⟩ := mem_map.1 hc
    exact choices_documented p hp c' hc'
  | .or ps, hp, c, hc => choicesOfAny_documented ps hp c hc
  | .missing, hp, c, hc => mem_singleton.1 hc ▸ hp
  | .wild, hp, c, hc => mem_singleton.1 hc ▸ hp
  | .lit v, hp, c, hc => mem_singleton.1 hc ▸ hp
  | .range low high, hp, c, hc => mem_singleton.1 hc ▸ hp
  | .variant u i ps, hp, c, hc => mem_singleton.1 hc ▸ hp

theorem choicesOfAny_documented {occ : Occurrence} : ∀ ps : List Pattern,
    allDocumented ps = true → ∀ c ∈ choicesOfAny occ ps, documented c.1 = true
  | [], _, c, hc => absurd hc not_mem_nil
  | p :: ps, hps, c, hc => by
    obtain ⟨hp, hps⟩ := Bool.and_eq_true_iff.1 hps
    rcases mem_append.1 hc with hc | hc
    · exact choices_documented p hp c hc
    · exact choicesOfAny_documented ps hps c hc

end

/-- All patterns of rows are. -/
def Documented (rows : List Row) : Prop := ∀ r ∈ rows, allDocumented r.patterns = true

/-- A column is replaced by such patterns. -/
theorem splice_documented {r : Row} {col : Nat} {ps : List Pattern}
    (hr : allDocumented r.patterns = true) (hps : allDocumented ps = true) :
    allDocumented (r.splice col ps).patterns = true := by
  rw [allDocumented_iff] at hr hps ⊢
  simp only [Row.splice, splice, mem_append]
  rintro p ((hp | hp) | hp)
  · exact hr p (mem_of_mem_take hp)
  · exact hps p hp
  · exact hr p (mem_of_mem_drop hp)

theorem documented_of_get {ps : List Pattern} {col : Nat} {p : Pattern}
    (h : allDocumented ps = true) (hp : ps[col]? = some p) : documented p = true :=
  allDocumented_iff.1 h p (mem_of_getElem? hp)

/-- Nothing that documented patterns fail to rule out is about the steps. -/
theorem documented_confines (pool : Pool) : Confines pool (· ≠ .fault .limit)
    fun _ r => allDocumented r.patterns = true where
  chosen h hcs := allDocumented_iff.2 <| hcs.forall fun p hp _ =>
    choices_documented p (allDocumented_iff.1 h p hp)
  dropped _ h := splice_documented h rfl
  passed h _ := splice_documented h rfl
  fields h _ hp := splice_documented h (documented_of_get h hp)
  wilds _ _ _ _ h := splice_documented h <| allDocumented_iff.2 fun p hp => by
    rw [eq_of_mem_replicate hp]
    rfl
  width _ := .inl (by decide)
  shape _ _ _ _ _ := .inl (by decide)
  present _ _ _ := by decide
  values _ _ _ _ _ _ := .inl (by decide)
  same {_ _ _ _ v} h _ hp := by
    have hv := documented_of_get h hp
    cases v <;> simp_all [documented, Literal.isDocumented, Literal.same]

-- ======== compilation

variable {pool : Pool} {guarded : List Bool}

/-- The compilation of a match ends. Whatever the types and the arms, a matrix
of documented patterns needs no more steps than it weighs: the steps do not run
out, and any larger number of steps gives the same tree or the same error. -/
theorem compileWithin_ends (rows : List Row) (occs : List Occurrence) (h : Documented rows)
    (steps : Nat) (hsteps : matrixWeight rows < steps) :
    compileWithin pool guarded steps rows occs ≠ .error (.fault .limit) ∧
      ∀ more ≥ steps, compileWithin pool guarded more rows occs =
        compileWithin pool guarded steps rows occs := by
  have hI := documented_confines pool
  exact ⟨fun hlimit => (compileWithin_agrees hI h hsteps hsteps).fails _ hlimit rfl,
    fun more hmore => (compileWithin_agrees hI h (hsteps.trans_le hmore) hsteps).eq⟩

/-- No alternative, a range of nothing, and a test that stays for both sides. -/
theorem emptyChoice_ends :
    Documented (rowsOf [.or [], .range 2 1, .as "x" (.or [.lit (.str [97]), .wild])]) ∧
      compileWithin .initial [] 6
        (rowsOf [.or [], .range 2 1, .as "x" (.or [.lit (.str [97]), .wild])]) [⟨[], .str⟩] ≠
          .error (.fault .limit) := by
  have hdoc : Documented (rowsOf [.or [], .range 2 1, .as "x" (.or [.lit (.str [97]), .wild])]) := by
    simp [Documented, rowsOf, allDocumented, documented, Literal.isDocumented]
  exact ⟨hdoc, (compileWithin_ends _ _ hdoc 6 (by decide)).1⟩

end RefCount.Match
