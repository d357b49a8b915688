/-
The compilation of a match comes to an end: every step lowers the weight of the
matrix.

# The measure

The weight of a row is the product of the weights of its patterns. Choosing an
alternative takes one summand of a column, so the normal rows of a row weigh
together what it did (`normalize_weight`). A test weighs more than a wildcard,
and a variant more than its fields, so a split that takes away the first row's
test makes the first row lighter, or drops it, and makes no row heavier
(`matrixWeight_lt`). In the rows that are left nothing weighs zero: only an
empty choice of alternatives does, and it leaves no row.
-/
import Mathlib
import RefCount.Proofs.Outcome
import RefCount.Proofs.Typing.Graph
import RefCount.Match.Compile

namespace RefCount.Match

open List Option Except

variable {arm : Nat} {ps qs : List Pattern}

-- ======== steps

section Steps

variable {Θ : Typing}
variable {ε α β : Type} {xs : List α} {o : Occurrence}

theorem Row.column_ok {r : Row} {col : Nat} {p : Pattern}
    (h : r.column col = .ok p) : r.patterns[col]? = some p := by
  rw [Row.column] at h
  split at h
  · next hp => rw [hp, ok.inj h]
  · cases h

theorem isWild_iff : isWild p = true ↔ p = .wild := by
  cases p <;> simp [isWild]

theorem splice_self {i : Nat} {x : α} (h : xs[i]? = some x) : splice xs i [x] = xs := by
  obtain ⟨hi, rfl⟩ := List.getElem?_eq_some_iff.1 h
  rw [splice, append_assoc, singleton_append, getElem_cons_drop, take_append_drop]

/-- The occurrences of the fields of a variant. -/
def fieldOccurrences (o : Occurrence) (variant : Int) (types : List TypeId) :
    List Occurrence :=
  types.zipIdx.map fun (t, i) => ⟨o.path ++ [⟨variant, (i : Int)⟩], t⟩

theorem fieldOccurrences_types (o : Occurrence) (variant : Int) (types : List TypeId) :
    (fieldOccurrences o variant types).map (·.type) = types := by
  rw [fieldOccurrences, List.map_map]
  exact zipIdx_map_fst 0 types

theorem fieldTypes_of_fields {variant : Int} {ts : List TypeId}
    (h : Θ.pool.fields o.type variant = .ok ts) : fieldTypes Θ.pool o variant = ts := by
  rw [fieldTypes, h]
  rfl

theorem orFault_ok {x : Except Fault α} {a : α} (h : orFault x = .ok a) : x = .ok a := by
  cases x with
  | error f => cases h
  | ok b => exact congrArg ok (ok.inj h)

theorem occurrenceAt_ok (h : occurrenceAt occs col = .ok o) : occs[col]? = some o := by
  rw [occurrenceAt] at h
  split at h
  · next ho => rw [ho, ok.inj h]
  · cases h

theorem shapeAt_ok {d : TypeDef} (h : shapeAt Θ.pool o = .ok d) :
    Θ.pool.shape? o.type = some d := by
  rw [shapeAt] at h
  split at h
  · next hd => rw [hd, ok.inj h]
  · cases h

/-- If no column is picked the first row tests nothing; a column that is picked
is one that it tests. -/
theorem pickColumn_ok {picked : Option Nat} (h : pickColumn (first :: rest) = .ok picked) :
    (picked = none → ∀ p ∈ first.patterns, p = .wild) ∧
      ∀ col, picked = some col → ∃ p, first.patterns[col]? = some p ∧ p ≠ .wild := by
  let Best (seen : List (Pattern × Nat)) (best : Option (Nat × Nat)) : Prop :=
    (best = none → ∀ c ∈ seen, c.1 = .wild) ∧
      ∀ b, best = some b → ∃ p, (p, b.1) ∈ seen ∧ p ≠ .wild
  obtain ⟨best, hbest, rfl⟩ := bind_pure_ok h
  have hall : Best first.patterns.zipIdx best := by
    refine foldlM_ok_nil (P := Best) (fun seen c best best' hb hstep => ?_)
      ⟨fun _ => forall_mem_nil _, forall_of_none⟩ hbest
    obtain ⟨p, col⟩ := c
    have hold (b) (heq : best = some b) : ∃ q, (q, b.1) ∈ seen ++ [(p, col)] ∧ q ≠ .wild := by
      obtain ⟨q, hq, hwild⟩ := hb.2 b heq
      exact ⟨q, mem_append_left _ hq, hwild⟩
    dsimp only at hstep
    split at hstep
    · next hw =>
      cases hstep
      exact ⟨fun heq => forall_mem_append.2
        ⟨hb.1 heq, forall_mem_singleton.2 (isWild_iff.1 hw)⟩, hold⟩
    · next hw =>
      -- a column that tests something is the best, or another is
      have hnew (n : Nat) : Best (seen ++ [(p, col)]) (some (col, n)) := by
        refine ⟨fun heq => (by cases heq), fun b heq => ?_⟩
        cases heq
        exact ⟨p, by simp, fun he => hw (isWild_iff.2 he)⟩
      obtain ⟨column, -, hstep⟩ := bind_ok hstep
      split at hstep
      · cases hstep
        split
        · exact hnew _
        · exact ⟨fun heq => (by cases heq), hold⟩
      · cases hstep
        exact hnew _
  refine ⟨fun heq p hp => ?_, fun col heq => ?_⟩
  · obtain ⟨i, hi⟩ := getElem?_of_mem hp
    exact hall.1 (map_eq_none_iff.1 heq) (p, i) (mem_zipIdx_iff_getElem?.2 hi)
  · obtain ⟨b, hb, rfl⟩ := map_eq_some_iff.1 heq
    obtain ⟨p, hp, hwild⟩ := hall.2 b hb
    exact ⟨p, mem_zipIdx_iff_getElem?.1 hp, hwild⟩

end Steps

-- ======== normal

/-- A pattern that tests or is a wildcard: names and alternatives are dealt
with. -/
def Normal : Pattern → Prop
  | .bind _ => False
  | .as _ _ => False
  | .or _ => False
  | _ => True

mutual

/-- A pattern that is chosen is normal. -/
theorem choices_normal {occ : Occurrence} : ∀ p : Pattern, ∀ c ∈ choices occ p, Normal c.1
  | .bind name, c, hc => by
    obtain rfl := mem_singleton.1 hc
    trivial
  | .as name p, c, hc => by
    obtain ⟨c', hc', rfl⟩ := mem_map.1 hc
    exact choices_normal p c' hc'
  | .or ps, c, hc => choicesOfAny_normal ps c hc
  | .missing, c, hc => mem_singleton.1 hc ▸ trivial
  | .wild, c, hc => mem_singleton.1 hc ▸ trivial
  | .lit v, c, hc => mem_singleton.1 hc ▸ trivial
  | .range low high, c, hc => mem_singleton.1 hc ▸ trivial
  | .variant u i ps, c, hc => mem_singleton.1 hc ▸ trivial

theorem choicesOfAny_normal {occ : Occurrence} :
    ∀ ps : List Pattern, ∀ c ∈ choicesOfAny occ ps, Normal c.1
  | [], c, hc => nomatch hc
  | p :: ps, c, hc => by
    rcases mem_append.1 hc with hc | hc
    · exact choices_normal p c hc
    · exact choicesOfAny_normal ps c hc

end

variable {rows rows' : List Row} {occs : List Occurrence} {first r : Row} {rest : List Row}
  {col : Nat} {p : Pattern}

/-- The normal rows of a row are those of its first column's choices. -/
theorem normalRows_cons_ok {done : List Pattern} {bindings : List Binding}
    (h : normalRows arm done bindings (p :: ps) occs = .ok rows) : ∃ parts,
      (choices (occs.headD default) p).mapM (fun c =>
        normalRows arm (c.1 :: done) (bindings ++ c.2) ps occs.tail) = .ok parts ∧
      parts.flatten = rows := by
  rw [normalRows] at h
  split at h
  · cases h
  · obtain ⟨parts, hparts, h⟩ := bind_ok h
    exact ⟨parts, hparts, ok.inj h⟩

/-- A choice for every column of a row. -/
inductive Chosen : List Occurrence → List Pattern → List (Pattern × List Binding) → Prop
  | nil {occs : List Occurrence} : Chosen occs [] []
  | cons {occs : List Occurrence} {p : Pattern} {ps : List Pattern} {c : Pattern × List Binding}
      {cs : List (Pattern × List Binding)} (hc : c ∈ choices (occs.headD default) p)
      (hcs : Chosen occs.tail ps cs) : Chosen occs (p :: ps) (c :: cs)

/-- What holds of every choice holds of all patterns of a row. -/
theorem Chosen.forall {Q : Pattern → Prop} {cs : List (Pattern × List Binding)}
    (h : Chosen occs ps cs) (hQ : ∀ p ∈ ps, ∀ o, ∀ c ∈ choices o p, Q c.1) :
    ∀ q ∈ cs.map (·.1), Q q := by
  induction h with
  | nil => exact fun _ hq => nomatch hq
  | cons hc _ ih =>
    obtain ⟨hp, hps⟩ := forall_mem_cons.1 hQ
    exact forall_mem_cons.2 ⟨hp _ _ hc, ih hps⟩

/-- A row becomes rows of choices. -/
theorem normalRows_chosen :
    ∀ {occs : List Occurrence} {done : List Pattern} {bindings : List Binding}
      {rows : List Row}, normalRows arm done bindings ps occs = .ok rows → ∀ r ∈ rows,
      ∃ cs, Chosen occs ps cs ∧
        r = ⟨done.reverse ++ cs.map (·.1), bindings ++ cs.flatMap (·.2), arm⟩ := by
  induction ps with
  | nil =>
    intro occs done bindings rows h r hr
    cases h
    obtain rfl := mem_singleton.1 hr
    exact ⟨[], .nil, by simp⟩
  | cons p ps ih =>
    intro occs done bindings rows h r hr
    obtain ⟨parts, hparts, rfl⟩ := normalRows_cons_ok h
    obtain ⟨part, hpart, hr⟩ := mem_flatten.1 hr
    obtain ⟨c, hc, hrun⟩ := mem_of_mapM_ok hparts hpart
    obtain ⟨cs, hcs, rfl⟩ := ih hrun r hr
    exact ⟨c :: cs, .cons hc hcs, by simp⟩

/-- Each row that is left is a choice from one that was there. -/
theorem normalize_chosen (h : normalize rows occs = .ok rows') {r' : Row} (hr' : r' ∈ rows') :
    ∃ r ∈ rows, ∃ cs, Chosen occs r.patterns cs ∧
      r' = ⟨cs.map (·.1), r.bindings ++ cs.flatMap (·.2), r.arm⟩ := by
  obtain ⟨parts, hparts, rfl⟩ := bind_pure_ok h
  obtain ⟨part, hpart, hr'⟩ := mem_flatten.1 hr'
  obtain ⟨r, hr, hrun⟩ := mem_of_mapM_ok hparts hpart
  exact ⟨r, hr, normalRows_chosen hrun r' hr'⟩

/-- All patterns are normal then. -/
theorem normalize_normal (h : normalize rows occs = .ok rows') :
    ∀ r ∈ rows', ∀ p ∈ r.patterns, Normal p := by
  intro r hr
  obtain ⟨r₀, -, cs, hcs, rfl⟩ := normalize_chosen h hr
  exact hcs.forall fun p _ o => choices_normal p

-- ======== weights

theorem weightOfAll_append (ps qs : List Pattern) :
    weightOfAll (ps ++ qs) = weightOfAll ps * weightOfAll qs := by
  induction ps with
  | nil => simp [weightOfAll]
  | cons p ps ih => simp [weightOfAll, ih, mul_assoc]

theorem weightOfAll_wild (n : Nat) : weightOfAll (List.replicate n .wild) = 1 := by
  induction n with
  | zero => rfl
  | succ n ih => simp [replicate_succ, weightOfAll, weight, ih]

theorem weight_pos (h : Normal p) : 0 < weight p := by
  cases p <;> simp [weight, Normal] at h ⊢

theorem weightOfAll_pos (h : ∀ p ∈ ps, Normal p) : 0 < weightOfAll ps := by
  induction ps with
  | nil => simp [weightOfAll]
  | cons p ps ih =>
    obtain ⟨hp, hps⟩ := forall_mem_cons.1 h
    exact mul_pos (weight_pos hp) (ih hps)

theorem matrixWeight_eq_sum (rows : List Row) :
    matrixWeight rows = (rows.map fun r => weightOfAll r.patterns).sum := by
  induction rows with
  | nil => rfl
  | cons r rows ih => rw [matrixWeight, map_cons, sum_cons, ih]

theorem matrixWeight_append (rows rows' : List Row) :
    matrixWeight (rows ++ rows') = matrixWeight rows + matrixWeight rows' := by
  simp [matrixWeight_eq_sum]

mutual

/-- The choices of a pattern weigh together what it does. -/
theorem sum_choices {occ : Occurrence} :
    ∀ p : Pattern, ((choices occ p).map fun c => weight c.1).sum = weight p
  | .bind name => by simp [choices, weight]
  | .as name p => by
    rw [choices, weight, ← sum_choices p, List.map_map]
    rfl
  | .or ps => by
    rw [choices, weight]
    exact sum_choicesOfAny ps
  | .missing => by simp [choices]
  | .wild => by simp [choices]
  | .lit v => by simp [choices]
  | .range low high => by simp [choices]
  | .variant u i ps => by simp [choices]

/-- The weight of alternatives is that of all choices. -/
theorem sum_choicesOfAny {occ : Occurrence} :
    ∀ ps : List Pattern, ((choicesOfAny occ ps).map fun c => weight c.1).sum = weightOfAny ps
  | [] => rfl
  | p :: ps => by
    rw [choicesOfAny, weightOfAny, map_append, sum_append, sum_choices p, sum_choicesOfAny ps]

end

/-- Rows for rows, with the weight of each. -/
theorem matrixWeight_flatten {α : Type} {w : α → Nat} {xs : List α} {parts : List (List Row)}
    (h : List.Forall₂ (fun x part => matrixWeight part = w x) xs parts) :
    matrixWeight parts.flatten = (xs.map w).sum := by
  induction h with
  | nil => rfl
  | cons hx _ ih => rw [flatten_cons, matrixWeight_append, hx, ih, map_cons, sum_cons]

/-- Choosing changes no weight. -/
theorem normalRows_weight :
    ∀ {occs : List Occurrence} {done : List Pattern} {bindings : List Binding}
      {rows : List Row}, normalRows arm done bindings ps occs = .ok rows →
      matrixWeight rows = weightOfAll done.reverse * weightOfAll ps := by
  induction ps with
  | nil =>
    intro occs done bindings rows h
    cases h
    simp [matrixWeight, weightOfAll]
  | cons p ps ih =>
    intro occs done bindings rows h
    obtain ⟨parts, hparts, rfl⟩ := normalRows_cons_ok h
    have hpart : List.Forall₂ (fun c part => matrixWeight part =
        weightOfAll done.reverse * weightOfAll ps * weight c.1)
        (choices (occs.headD default) p) parts := by
      refine (mapM_ok hparts).imp fun c part hrun => ?_
      rw [ih hrun, reverse_cons, weightOfAll_append]
      simp only [weightOfAll]
      ring
    rw [matrixWeight_flatten hpart, sum_map_mul_left, sum_choices, weightOfAll]
    ring

/-- Taking alternatives apart keeps the weight of a matrix. -/
theorem normalize_weight (h : normalize rows occs = .ok rows') :
    matrixWeight rows' = matrixWeight rows := by
  obtain ⟨parts, hparts, rfl⟩ := bind_pure_ok h
  rw [matrixWeight_eq_sum rows]
  refine matrixWeight_flatten ((mapM_ok hparts).imp fun r part hrun => ?_)
  rw [normalRows_weight hrun]
  simp [weightOfAll]

-- ======== splits

/-- A row's weight is that of one of its columns times that of the others. -/
theorem weightOfAll_column (hp : ps[col]? = some p) :
    weightOfAll ps = weightOfAll (ps.take col) * weight p * weightOfAll (ps.drop (col + 1)) := by
  have hsplit := splice_self hp
  rw [splice] at hsplit
  rw [← hsplit, weightOfAll_append, weightOfAll_append, hsplit]
  simp [weightOfAll]

/-- A column that gets no heavier makes no row heavier. -/
theorem weightOfAll_splice_le (hp : r.patterns[col]? = some p) (hq : weightOfAll qs ≤ weight p) :
    weightOfAll (r.splice col qs).patterns ≤ weightOfAll r.patterns := by
  rw [Row.splice, splice, weightOfAll_append, weightOfAll_append, weightOfAll_column hp]
  gcongr

/-- A column that gets lighter makes a normal row lighter. -/
theorem weightOfAll_splice_lt (hn : ∀ p ∈ r.patterns, Normal p) (hp : r.patterns[col]? = some p)
    (hq : weightOfAll qs < weight p) :
    weightOfAll (r.splice col qs).patterns < weightOfAll r.patterns := by
  have hleft := weightOfAll_pos fun q hq => hn q (mem_of_mem_take (i := col) hq)
  have hright := weightOfAll_pos fun q hq => hn q (mem_of_mem_drop (i := col + 1) hq)
  rw [Row.splice, splice, weightOfAll_append, weightOfAll_append, weightOfAll_column hp]
  gcongr

/-- What rows leave of themselves for a column, each maybe nothing. -/
theorem mem_rows {g : Row → Pattern → Except Fault (Option Row)}
    (h : (rows.mapM (fun r => r.column col >>= g r) >>=
      fun os => pure (os.filterMap id)) = .ok rows') {r' : Row} (hr' : r' ∈ rows') :
    ∃ r ∈ rows, ∃ p, r.patterns[col]? = some p ∧ g r p = .ok (some r') := by
  obtain ⟨os, hos, rfl⟩ := bind_pure_ok h
  obtain ⟨o, ho, rfl⟩ := mem_filterMap.1 hr'
  obtain ⟨r, hr, hrun⟩ := mem_of_mapM_ok hos ho
  obtain ⟨p, hp, hrun⟩ := bind_ok hrun
  exact ⟨r, hr, p, Row.column_ok hp, hrun⟩

/-- Rows that leave rows no heavier than they are, or none, of which the first
leaves a lighter one, or none. -/
theorem matrixWeight_lt {g : Row → Pattern → Except Fault (Option Row)}
    (hn : ∀ p ∈ first.patterns, Normal p) (hp : first.patterns[col]? = some p)
    (h : ((first :: rest).mapM (fun r => r.column col >>= g r) >>=
      fun os => pure (os.filterMap id)) = .ok rows')
    (hrow : ∀ r q r', g r q = .ok (some r') → (q ≠ p ∧ r' = r) ∨ ∃ qs, r' = r.splice col qs ∧
      weightOfAll qs ≤ weight q ∧ (q = p → weightOfAll qs < weight q)) :
    matrixWeight rows' < matrixWeight (first :: rest) := by
  have hpos := weightOfAll_pos hn
  have hle (r q r') (hq : r.patterns[col]? = some q) (hrun : g r q = .ok (some r')) :
      weightOfAll r'.patterns ≤ weightOfAll r.patterns := by
    rcases hrow r q r' hrun with ⟨-, rfl⟩ | ⟨qs, rfl, hqs, -⟩
    · exact le_rfl
    · exact weightOfAll_splice_le hq hqs
  have hrest : ∀ {rows : List Row} {os : List (Option Row)},
      rows.mapM (fun r => r.column col >>= g r) = .ok os →
      matrixWeight (os.filterMap id) ≤ matrixWeight rows := by
    intro rows os hos
    induction mapM_ok hos with
    | nil => exact le_rfl
    | @cons r o rows os hr hall ih =>
      rw [mapM_cons] at hos
      obtain ⟨_, _, hos⟩ := bind_ok hos
      obtain ⟨os', hos', hos⟩ := bind_ok hos
      obtain ⟨-, rfl⟩ := List.cons.inj (ok.inj hos)
      have hle' := ih hos'
      cases o with
      | none =>
        rw [matrixWeight]
        exact hle'.trans (Nat.le_add_left _ _)
      | some r' =>
        show weightOfAll r'.patterns + _ ≤ _
        obtain ⟨q, hq, hr⟩ := bind_ok hr
        rw [matrixWeight]
        exact add_le_add (hle r q r' (Row.column_ok hq) hr) hle'
  obtain ⟨os, hos, rfl⟩ := bind_pure_ok h
  rw [mapM_cons] at hos
  obtain ⟨o, ho, hos⟩ := bind_ok hos
  obtain ⟨os', hos', hos⟩ := bind_ok hos
  obtain rfl : o :: os' = os := ok.inj hos
  have hle' := hrest hos'
  rw [matrixWeight]
  cases o with
  | none =>
    show matrixWeight (os'.filterMap id) < _
    omega
  | some r' =>
    obtain ⟨q, hq, ho⟩ := bind_ok ho
    cases hp.symm.trans (Row.column_ok hq)
    have hlt' : weightOfAll r'.patterns < weightOfAll first.patterns := by
      rcases hrow first p r' ho with ⟨hne, -⟩ | ⟨qs, rfl, -, hqs⟩
      · exact absurd rfl hne
      · exact weightOfAll_splice_lt hn hp (hqs rfl)
    show weightOfAll r'.patterns + matrixWeight (os'.filterMap id) < _
    omega

section splits

variable (hn : ∀ p ∈ first.patterns, Normal p)
include hn

/-- Rows for a variant are lighter. -/
theorem specialize_weight_lt {arity : Nat} {variant i : Int} {u : TypeId} {ps : List Pattern}
    (h : specialize (first :: rest) col arity variant = .ok rows')
    (hp : first.patterns[col]? = some (.variant u i ps)) :
    matrixWeight rows' < matrixWeight (first :: rest) := by
  refine matrixWeight_lt hn hp h fun r q r' hrun => .inr ?_
  split at hrun
  · split at hrun
    · cases hrun
      exact ⟨_, rfl, by simp [weight], fun _ => by simp [weight]⟩
    · cases hrun
  · cases hrun
    exact ⟨_, rfl, by simp [weight, weightOfAll_wild], fun he => by cases he⟩
  · cases hrun

/-- So are those for what no case is for. -/
theorem defaults_weight_lt (h : defaults (first :: rest) col = .ok rows')
    (hp : first.patterns[col]? = some p) (hw : p ≠ .wild) :
    matrixWeight rows' < matrixWeight (first :: rest) := by
  refine matrixWeight_lt hn hp h fun r q r' hrun => .inr ?_
  split at hrun
  · next hwild =>
    cases hrun
    obtain rfl := isWild_iff.1 hwild
    exact ⟨_, rfl, by simp [weight, weightOfAll], fun he => absurd he.symm hw⟩
  · cases hrun

/-- So are those for a value. -/
theorem whereValue_weight_lt {value : Int64} {v : Literal}
    (h : whereValue (first :: rest) col value = .ok rows')
    (hp : first.patterns[col]? = some (.lit v)) :
    matrixWeight rows' < matrixWeight (first :: rest) := by
  refine matrixWeight_lt hn hp h fun r q r' hrun => .inr ?_
  split at hrun
  · cases hrun
    exact ⟨_, rfl, by simp [weight, weightOfAll], fun he => by cases he⟩
  · obtain ⟨n, -, hrun⟩ := bind_ok hrun
    split at hrun
    · cases hrun
      exact ⟨_, rfl, by simp [weight, weightOfAll], fun _ => by simp [weight, weightOfAll]⟩
    · cases hrun
  · cases hrun

end splits

-- ------------------------------------------------------------------- tests

/-- A pattern that covers itself is a literal or a range. -/
theorem weight_of_covers {q : Pattern} (h : covers p q = true) : weight p = 2 := by
  cases p with
  | lit | range => simp [weight]
  | _ => cases q <;> simp [covers, interval?] at h

theorem covers_range (low high : Int64) : covers (.range low high) (.range low high) = true := by
  simp [covers, interval?]

theorem covers_lit {v : Literal} (h : v.same v = true) : covers (.lit v) (.lit v) = true := by
  cases v <;> simp_all [covers, interval?]

theorem ne_of_isWild {q : Pattern} (hself : covers p p = true) (hq : isWild q = true) : q ≠ p := by
  rintro rfl
  obtain rfl := isWild_iff.1 hq
  cases hself

section tests

variable (hn : ∀ p ∈ first.patterns, Normal p) (hp : first.patterns[col]? = some p)
  (hself : covers p p = true)
include hn hp hself

/-- So are those for a test that holds. -/
theorem whereHolds_weight_lt (h : whereHolds (first :: rest) col p = .ok rows') :
    matrixWeight rows' < matrixWeight (first :: rest) := by
  refine matrixWeight_lt hn hp h fun r q r' hrun => ?_
  replace hrun := ok.inj hrun
  split at hrun
  · next hwild =>
    cases hrun
    exact .inl ⟨ne_of_isWild hself hwild, rfl⟩
  split at hrun
  · next hcovers =>
    cases hrun
    have hlt : weightOfAll [.wild] < weight q := by
      simp [weight_of_covers hcovers, weightOfAll, weight]
    exact .inr ⟨_, rfl, hlt.le, fun _ => hlt⟩
  · next hcovers =>
    split at hrun
    · cases hrun
    · cases hrun
      exact .inl ⟨fun he => hcovers (he ▸ hself), rfl⟩

/-- So are those for a test that fails. -/
theorem whereFails_weight_lt (h : whereFails (first :: rest) col p = .ok rows') :
    matrixWeight rows' < matrixWeight (first :: rest) := by
  refine matrixWeight_lt hn hp h fun r q r' hrun => ?_
  replace hrun := ok.inj hrun
  split at hrun
  · next hcond =>
    cases hrun
    rcases Bool.or_eq_true_iff.1 hcond with hwild | hcovers
    · exact .inl ⟨ne_of_isWild hself hwild, rfl⟩
    · exact .inl ⟨fun he => by simp [he, hself] at hcovers, rfl⟩
  · cases hrun

end tests

end RefCount.Match
