/-
Counting the ways in which arms match. The compiler of matches takes the ways
of an arm apart and puts them together again in another order, so what it
keeps is how many there are of each. A polynomial counts them: there is a
variable for every arm and for every name with its value, a way is the product
of its arm and its names, and ways add up. The fields of a pattern then
multiply and its alternatives add up, and that an order does not matter is
that multiplication commutes.

# Main results

Candidates with the same tally are the same up to order (`unordered_perm`).
Taking alternatives apart (`normalize_keeps`) and each way of splitting a
column keep the tally of a matrix.
-/
import Mathlib
import RefCount.Proofs.Match.Suits
import RefCount.Proofs.Meaning.Proper

namespace RefCount.Meaning

open Machine (Tree)
open Match (Row Occurrence Binding)
open MvPolynomial (X)
open List
open Match hiding Tree

variable {name : String} {p : Pattern} {ps qs : List Pattern} {col arm : Nat}
  {parts : List (List Row)}

-- ======== tallies

/-- What a way consists of: its arm, and names with their values. -/
abbrev Mark := Nat ⊕ (String × Tree)

/-- The product of names. -/
noncomputable def product (e : Env) : MvPolynomial Mark ℕ := (e.map fun b => X (.inr b)).prod

/-- Counts ways. -/
noncomputable def count (es : List Env) : MvPolynomial Mark ℕ := (es.map product).sum

/-- Counts candidates. -/
noncomputable def tally (cs : List Candidate) : MvPolynomial Mark ℕ :=
  (cs.map fun c => X (.inl c.1) * product c.2).sum

/-- The marks of a candidate. -/
def Candidate.marks (c : Candidate) : Multiset Mark := .inl c.1 ::ₘ (c.2.map .inr : List Mark)

theorem Candidate.unordered_of_marks (c : Candidate) :
    ((c.marks.filterMap Sum.getLeft?).sum, c.marks.filterMap Sum.getRight?) = c.unordered := by
  have hleft : (.inl c.1 :: c.2.map .inr : List Mark).filterMap Sum.getLeft? = [c.1] := by
    simp [filterMap_map, Function.comp_def]
  have hright : (.inl c.1 :: c.2.map .inr : List Mark).filterMap Sum.getRight? = c.2 := by
    simp [filterMap_cons, filterMap_map, Function.comp_def]
  rw [Candidate.marks, Candidate.unordered, Multiset.cons_coe, Multiset.filterMap_coe,
    Multiset.filterMap_coe, hleft, hright]
  rfl

open Classical in
theorem monomial_marks (c : Candidate) : X (.inl c.1) * product c.2 =
      MvPolynomial.monomial (Multiset.toFinsupp c.marks) (1 : ℕ) := by
  have hprod (l : List Mark) : (l.map X).prod =
      MvPolynomial.monomial (Multiset.toFinsupp (l : Multiset Mark)) (1 : ℕ) := by
    induction l with
    | nil => simp
    | cons a l ih =>
      rw [map_cons, prod_cons, ih, ← Multiset.cons_coe, ← Multiset.singleton_add,
        map_add, Multiset.toFinsupp_singleton, X, MvPolynomial.monomial_mul, one_mul]
  have hall := hprod (.inl c.1 :: c.2.map .inr)
  rw [map_cons, prod_cons, map_map] at hall
  exact hall

open Classical in
/-- A tally tells how many candidates have given marks. -/
theorem coeff_tally (cs : List Candidate) (m : Mark →₀ ℕ) : (tally cs).coeff m =
      (cs.map fun c => Multiset.toFinsupp c.marks).count m := by
  induction cs with
  | nil => simp [tally]
  | cons c cs ih =>
    have hcons : tally (c :: cs) = X (.inl c.1) * product c.2 + tally cs := by
      simp [tally]
    rw [hcons, MvPolynomial.coeff_add, ih, monomial_marks, MvPolynomial.coeff_monomial,
      map_cons, count_cons, Nat.add_comm]
    simp

/-- Candidates with the same tally are the same up to order. -/
theorem unordered_perm {cs ds : List Candidate} (h : tally cs = tally ds) :
    (cs.map Candidate.unordered).Perm (ds.map Candidate.unordered) := by
  classical
  have hmarks : (cs.map fun c => Multiset.toFinsupp c.marks).Perm
      (ds.map fun c => Multiset.toFinsupp c.marks) := by
    rw [perm_iff_count]
    intro m
    rw [← coeff_tally, ← coeff_tally, h]
  have hback := hmarks.map fun m =>
    (((Finsupp.toMultiset m).filterMap Sum.getLeft?).sum,
      (Finsupp.toMultiset m).filterMap Sum.getRight?)
  simpa [map_map, Function.comp_def, Candidate.unordered_of_marks] using hback

-- ======== weights

theorem product_append (e e' : Env) : product (e ++ e') = product e * product e' := by
  simp [product]

theorem product_perm {e e' : Env} (h : e.Perm e') : product e = product e' := (h.map _).prod_eq

theorem count_append (es es' : List Env) : count (es ++ es') = count es + count es' := by
  simp [count]

/-- Ways that go on in several ways each. -/
theorem count_product (es es' : List Env) :
    count (es.flatMap fun e => es'.map (e ++ ·)) = count es * count es' := by
  induction es with
  | nil => simp [count]
  | cons e es ih =>
    have hfirst : count (es'.map (e ++ ·)) = product e * count es' := by
      simp only [count, map_map, Function.comp_def, product_append]
      exact sum_map_mul_left _ _ _
    have hcons : count (e :: es) = product e + count es := by simp [count]
    rw [flatMap_cons, count_append, ih, hfirst, hcons, add_mul]

/-- The ways in which a pattern matches. -/
noncomputable def weight (t : Tree) (p : Pattern) : MvPolynomial Mark ℕ := count (matchings t p)

/-- The ways in which patterns match, one for one. -/
noncomputable def weightAll (ts : List Tree) (ps : List Pattern) : MvPolynomial Mark ℕ :=
  count (columnMatchings ts ps)

variable {t : Tree}

@[simp] theorem weight_wild : weight t .wild = 1 := by
  simp [weight, matchings, count, product]

@[simp] theorem weight_bind : weight t (.bind name) = X (.inr (name, t)) := by
  simp [weight, matchings, count, product]

@[simp] theorem weight_as : weight t (.as name p) = X (.inr (name, t)) * weight t p := by
  simp only [weight, matchings, count, map_map]
  rw [← sum_map_mul_left]
  simp [Function.comp_def, product]

theorem weight_lit {v : Literal} : weight t (.lit v) = if isLiteral t v then 1 else 0 := by
  rw [weight, matchings]
  split <;> simp [count, product]

theorem weight_range {low high : Int64} : weight t (.range low high) =
    if low ≤ Plain.toInt t ∧ Plain.toInt t ≤ high then 1 else 0 := by
  rw [weight, matchings]
  split <;> simp [count, product]

theorem weight_variant {u : TypeId} {i : Int} : weight t (.variant u i ps) =
      if isVariant t i then weightAll (t.children ps.length) ps else 0 := by
  rw [weight, matchings]
  split
  · rfl
  · simp [count]

@[simp] theorem weightAll_nil (ts : List Tree) : weightAll ts [] = 1 := by
  cases ts <;> simp [weightAll, columnMatchings, count, product]

@[simp] theorem weightAll_cons (t : Tree) (ts : List Tree) (p : Pattern) (ps : List Pattern) :
    weightAll (t :: ts) (p :: ps) = weight t p * weightAll ts ps := by
  rw [weightAll, columnMatchings, count_product]
  rfl

theorem weightAll_append (h : ts.length = ps.length) :
    weightAll (ts ++ us) (ps ++ qs) = weightAll ts ps * weightAll us qs := by
  induction ts generalizing ps with
  | nil =>
    obtain rfl := eq_nil_of_length_eq_zero h.symm
    simp
  | cons t ts ih =>
    cases ps with
    | nil => cases h
    | cons p ps =>
      rw [cons_append, cons_append, weightAll_cons, weightAll_cons, ih (Nat.succ.inj h), mul_assoc]

theorem weightAll_wild : ∀ {ps : List Pattern} {ts : List Tree},
    ts.length = ps.length → (∀ p ∈ ps, p = .wild) → weightAll ts ps = 1 := by
  intro ps
  induction ps with
  | nil => exact fun _ _ => weightAll_nil _
  | cons p ps ih =>
    intro ts hlen hp
    cases ts with
    | nil => cases hlen
    | cons t ts =>
      obtain rfl := hp p (.head _)
      rw [weightAll_cons, weight_wild, one_mul]
      exact ih (Nat.succ.inj hlen) fun q hq => hp q (.tail _ hq)

theorem weightAll_column (hlen : ts.length = ps.length) (ht : ts[col]? = some t)
    (hp : ps[col]? = some p) : weightAll ts ps = weight t p *
      (weightAll (ts.take col) (ps.take col) *
        weightAll (ts.drop (col + 1)) (ps.drop (col + 1))) := by
  obtain ⟨hlt, rfl⟩ := List.getElem?_eq_some_iff.1 ht
  obtain ⟨hlp, rfl⟩ := List.getElem?_eq_some_iff.1 hp
  have hsplit (α : Type) (xs : List α) (h : col < xs.length) :
      xs = xs.take col ++ (xs[col] :: xs.drop (col + 1)) := by
    rw [getElem_cons_drop, take_append_drop]
  conv_lhs => rw [hsplit _ ts hlt, hsplit _ ps hlp]
  rw [weightAll_append (by simp [hlen]), weightAll_cons]
  ring

/-- A column that is replaced by others is replaced as a factor. -/
theorem weightAll_splice (hlen : ts.length = ps.length) (hq : us.length = qs.length) :
    weightAll (splice ts col us) (splice ps col qs) = weightAll us qs *
      (weightAll (ts.take col) (ps.take col) *
        weightAll (ts.drop (col + 1)) (ps.drop (col + 1))) := by
  rw [splice, splice, weightAll_append (by simp [hlen, hq]), weightAll_append (by simp [hlen])]
  ring

-- ======== positions

/-- What stands at a position inside a tree: each step must lead to a field of
the variant that is there. -/
def look (root : Tree) (path : List Step) : Option Tree :=
  path.foldlM (fun t s =>
    if isVariant t s.variant then Plain.project t s.variant s.field else none) root

/-- What stands at a position that is there. -/
def valueAt (root : Tree) (path : List Step) : Tree :=
  (look root path).getD (.leaf .unit)

/-- The names of bindings, with what they stand for. -/
def bound (root : Tree) (bs : List Binding) : Env :=
  bs.map fun b => (b.name, valueAt root b.occurrence.path)

/-- The positions that a row gives names to are there. -/
def Seen (root : Tree) (r : Row) : Prop :=
  ∀ b ∈ r.bindings, (look root b.occurrence.path).isSome

/-- The trees at the occurrences of a matrix are proper values of their
types. -/
def Shows (Θ : Typing) (root : Tree) (occs : List Occurrence) (ts : List Tree) : Prop :=
  List.Forall₂ (fun o t => look root o.path = some t ∧ Θ.Proper o.type t) occs ts

variable {Θ : Typing} {root : Tree} {ts us : List Tree} {rows rows' : List Row}

theorem valueAt_of_look {path : List Step} (h : look root path = some t) :
    valueAt root path = t := by
  rw [valueAt, h]
  rfl

-- ======== matrices

/-- Counts the ways in which a row matches the trees in its columns. -/
noncomputable def rowTally (root : Tree) (ts : List Tree) (r : Row) : MvPolynomial Mark ℕ :=
  X (.inl r.arm) * product (bound root r.bindings) * weightAll ts r.patterns

/-- Counts the ways in which the rows of a matrix match. -/
noncomputable def matrixTally (root : Tree) (ts : List Tree) (rows : List Row) :
    MvPolynomial Mark ℕ :=
  (rows.map (rowTally root ts)).sum

/-- The rows of an earlier arm come first. -/
def Sorted (rows : List Row) : Prop := rows.Pairwise fun a b => a.arm ≤ b.arm

/-- A matrix is replaced by another for other trees: both match in the same
ways. -/
structure Keeps (root : Tree) (ts : List Tree) (rows : List Row) (us : List Tree)
    (rows' : List Row) : Prop where
  tally : matrixTally root us rows' = matrixTally root ts rows
  sorted : Sorted rows → Sorted rows'
  origin : ∀ r' ∈ rows', ∃ r ∈ rows, r'.arm = r.arm
  seen : (∀ r ∈ rows, Seen root r) → ∀ r' ∈ rows', Seen root r'

/-- Sums over lists that are put together. -/
theorem sum_flatten {α β : Type} {f : β → MvPolynomial Mark ℕ}
    {g : α → MvPolynomial Mark ℕ} {xs : List α} {parts : List (List β)}
    (h : List.Forall₂ (fun x part => (part.map f).sum = g x) xs parts) :
    (parts.flatten.map f).sum = (xs.map g).sum := by
  induction h with
  | nil => rfl
  | cons hx _ ih =>
    rw [flatten_cons, map_append, sum_append, map_cons, sum_cons, hx, ih]

/-- Rows that are put together in order. -/
theorem sorted_flatten (h : Forall₂ (fun r part => ∀ r' ∈ part, r'.arm = r.arm) rows parts)
    (hs : Sorted rows) : Sorted parts.flatten := by
  induction h with
  | nil => exact .nil
  | @cons r part rows parts hr hrs ih =>
    obtain ⟨hfirst, hs⟩ := pairwise_cons.1 hs
    rw [flatten_cons]
    refine pairwise_append.2 ⟨?_, ih hs, ?_⟩
    · refine pairwise_of_forall_mem_list fun a ha b hb => ?_
      rw [hr a ha, hr b hb]
    · intro a ha b hb
      obtain ⟨part', hpart', hb⟩ := mem_flatten.1 hb
      obtain ⟨r', hr', harm⟩ := exists_of_forall₂ hrs.flip hpart'
      rw [hr a ha, harm b hb]
      exact hfirst r' hr'

/-- Rows that each leave some rows with the same ways. -/
theorem Keeps.flatten
    (h : Forall₂ (fun r part => ((part.map (rowTally root us)).sum = rowTally root ts r) ∧
      ∀ r' ∈ part, r'.arm = r.arm ∧ (Seen root r → Seen root r')) rows parts) :
    Keeps root ts rows us parts.flatten := by
  have horigin : ∀ r' ∈ parts.flatten, ∃ r ∈ rows, r'.arm = r.arm ∧
      (Seen root r → Seen root r') := by
    intro r' hr'
    obtain ⟨part, hpart, hr'⟩ := mem_flatten.1 hr'
    obtain ⟨r, hr, hrow⟩ := exists_of_forall₂ h.flip hpart
    exact ⟨r, hr, hrow.2 r' hr'⟩
  refine ⟨sum_flatten (h.imp fun _ _ hp => hp.1),
    sorted_flatten (h.imp fun _ _ hp r' hr' => (hp.2 r' hr').1), ?_, ?_⟩
  · intro r' hr'
    obtain ⟨r, hr, harm, -⟩ := horigin r' hr'
    exact ⟨r, hr, harm⟩
  · intro hseen r' hr'
    obtain ⟨r, hr, -, hs⟩ := horigin r' hr'
    exact hs (hseen r hr)

-- ======== alternatives

mutual

/-- The choices of a pattern have its ways, and bind at its position. -/
theorem choices_weight {occ : Occurrence} (ht : valueAt root occ.path = t) : ∀ p : Pattern,
      (((choices occ p).map fun c => product (bound root c.2) * weight t c.1).sum =
        weight t p) ∧ ∀ c ∈ choices occ p, ∀ b ∈ c.2, b.occurrence = occ
  | .bind name => by
    simp [choices, bound, product, ht]
  | .as name p => by
    obtain ⟨hsum, hc⟩ := choices_weight ht p
    refine ⟨?_, ?_⟩
    · rw [weight_as, ← hsum, choices, map_map, ← sum_map_mul_left]
      simp [Function.comp_def, bound, product, ht, mul_assoc]
    · intro c hmem b hb
      rw [choices] at hmem
      obtain ⟨c', hc', rfl⟩ := mem_map.1 hmem
      rcases mem_cons.1 hb with rfl | hb
      · rfl
      · exact hc c' hc' b hb
  | .or ps => by
    rw [choices, weight, matchings]
    exact choicesOfAny_weight ht ps
  | .missing => by simp [choices, bound, product]
  | .wild => by simp [choices, bound, product]
  | .lit v => by simp [choices, bound, product]
  | .range low high => by simp [choices, bound, product]
  | .variant u i ps => by simp [choices, bound, product]

/-- The same of several alternatives. -/
theorem choicesOfAny_weight {occ : Occurrence} (ht : valueAt root occ.path = t) :
    ∀ ps : List Pattern,
      (((choicesOfAny occ ps).map fun c => product (bound root c.2) * weight t c.1).sum =
        count (anyMatchings t ps)) ∧ ∀ c ∈ choicesOfAny occ ps, ∀ b ∈ c.2, b.occurrence = occ
  | [] => by simp [choicesOfAny, anyMatchings, count]
  | p :: ps => by
    obtain ⟨hsum, hc⟩ := choices_weight ht p
    obtain ⟨hsums, hcs⟩ := choicesOfAny_weight ht ps
    rw [choicesOfAny, anyMatchings]
    refine ⟨?_, ?_⟩
    · rw [map_append, sum_append, hsum, hsums, count_append]
      rfl
    · intro c hmem
      rcases mem_append.1 hmem with hmem | hmem
      · exact hc c hmem
      · exact hcs c hmem

end

/-- The normal rows of a row have its ways. `us` are the trees in the columns
that are chosen already. -/
theorem normalRows_tally :
    ∀ {occs : List Occurrence} {done : List Pattern} {bindings : List Binding}
      {rows : List Row} {us ts : List Tree},
      normalRows arm done bindings ps occs = .ok rows → us.length = done.length →
      List.Forall₂ (fun o t => valueAt root o.path = t) occs ts →
      occs.length = ps.length → (rows.map (rowTally root (us ++ ts))).sum = X (.inl arm) *
        product (bound root bindings) * (weightAll us done.reverse * weightAll ts ps) := by
  induction ps with
  | nil =>
    intro occs done bindings rows us ts h hus hts hlen
    obtain rfl := eq_nil_of_length_eq_zero hlen
    cases hts
    cases h
    simp [rowTally]
  | cons p ps ih =>
    intro occs done bindings rows us ts h hus hts hlen
    cases hts with
    | nil => cases hlen
    | @cons o t occs ts ht hts =>
      obtain ⟨parts, hparts, rfl⟩ := normalRows_cons_ok h
      have hpart : List.Forall₂ (fun c part =>
          (part.map (rowTally root (us ++ t :: ts))).sum =
            X (.inl arm) * product (bound root bindings) *
              (weightAll us done.reverse * weightAll ts ps) *
              (product (bound root c.2) * weight t c.1))
          (choices o p) parts := by
        refine (mapM_ok hparts).imp fun c part hrun => ?_
        have hus' : (us ++ [t]).length = (c.1 :: done).length := by simp [hus]
        have hrest := ih hrun hus' hts (Nat.succ.inj hlen)
        rw [append_assoc, singleton_append] at hrest
        rw [hrest, reverse_cons, weightAll_append (by simp [hus]), weightAll_cons,
          weightAll_nil, bound, map_append, product_append]
        simp only [bound]
        ring
      rw [sum_flatten hpart, sum_map_mul_left, (choices_weight ht p).1, weightAll_cons]
      ring

theorem mem_occs_of_chosen {cs : List (Pattern × List Binding)} (h : Chosen occs ps cs)
    (hlen : ps.length = occs.length) : ∀ b ∈ cs.flatMap (·.2), b.occurrence ∈ occs := by
  induction h with
  | nil => exact fun _ hb => nomatch hb
  | @cons occs p _ c _ hc _ ih =>
    cases occs with
    | nil => cases hlen
    | cons o occs =>
      intro b hb
      rcases mem_append.1 hb with hb | hb
      · rw [(@choices_weight _ (.leaf .unit) o rfl p).2 c hc b hb]
        exact .head _
      · exact .tail _ (ih (Nat.succ.inj hlen) b hb)

/-- Taking alternatives apart keeps the ways of a matrix. -/
theorem normalize_keeps {occs : List Occurrence} (h : normalize rows occs = .ok rows')
    (ho : Shows Θ root occs ts) (hlen : ∀ r ∈ rows, r.patterns.length = occs.length) :
    Keeps root ts rows ts rows' := by
  obtain ⟨parts, hparts, rfl⟩ := bind_pure_ok h
  have hvalues : List.Forall₂ (fun o t => valueAt root o.path = t) occs ts :=
    List.Forall₂.imp (fun _ _ h => valueAt_of_look h.1) ho
  have hall := mapM_ok hparts
  refine .flatten ?_
  rw [forall₂_iff_get] at hall ⊢
  refine ⟨hall.1, fun i hi hi' => ⟨?_, fun r' hr' => ?_⟩⟩
  · have hrow := normalRows_tally (hall.2 i hi hi') (length_nil (α := Tree)) hvalues
      (hlen _ (get_mem _ _)).symm
    simpa [rowTally, mul_assoc] using hrow
  · obtain ⟨cs, hcs, rfl⟩ := normalRows_chosen (hall.2 i hi hi') r' hr'
    refine ⟨rfl, fun hseen b hb => ?_⟩
    rcases mem_append.1 hb with hb | hb
    · exact hseen b hb
    · have hmem := mem_occs_of_chosen hcs (hlen _ (get_mem _ _)) b hb
      obtain ⟨t, -, hlook, -⟩ := exists_of_forall₂ ho hmem
      exact Option.isSome_iff_exists.2 ⟨t, hlook⟩

end RefCount.Meaning
