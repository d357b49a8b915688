/-
Inverting computations that may fail. A computation that succeeds decomposes
into its steps, each of which succeeds; a step over a list succeeds on every
element; and a name is looked up alike in lists that go with each other.
-/
import Mathlib

namespace RefCount

open List

variable {ε σ α β : Type}

/-- Nothing is asked of a value that does not come back. -/
theorem forall_of_none {P : α → Prop} : ∀ a, (none : Option α) = some a → P a := by
  intro a h
  cases h

theorem forall₂_getElem? {R : α → β → Prop} {xs : List α} {ys : List β} {k : Nat} {x : α}
    (h : Forall₂ R xs ys) (hk : xs[k]? = some x) : ∃ y, ys[k]? = some y ∧ R x y := by
  obtain ⟨hlt, rfl⟩ := List.getElem?_eq_some_iff.1 hk
  have hlt' : k < ys.length := h.length_eq ▸ hlt
  exact ⟨ys[k], getElem?_eq_getElem hlt', h.get hlt hlt'⟩

theorem exists_of_forall₂ {R : α → β → Prop} {xs : List α} {ys : List β} {x : α}
    (h : Forall₂ R xs ys) (hx : x ∈ xs) : ∃ y ∈ ys, R x y := by
  obtain ⟨k, hk⟩ := mem_iff_getElem?.1 hx
  obtain ⟨y, hy, hxy⟩ := forall₂_getElem? h hk
  exact ⟨y, mem_of_getElem? hy, hxy⟩

-- ======== failure alone

variable {b : β}

/-- The first step of a computation that succeeds. -/
theorem bind_ok {x : Except ε α} {f : α → Except ε β}
    (h : x >>= f = .ok b) : ∃ a, x = .ok a ∧ f a = .ok b := by
  cases x with
  | error e => cases h
  | ok a => exact ⟨a, rfl, h⟩

variable {g : α → β}

theorem bind_pure_ok {x : Except ε α}
    (h : (x >>= fun a => pure (g a)) = .ok b) : ∃ a, x = .ok a ∧ g a = b := by
  obtain ⟨a, hx, hg⟩ := bind_ok h
  exact ⟨a, hx, Except.ok.inj hg⟩

/-- A computation over a list succeeds on every element. -/
theorem mapM_ok {f : α → Except ε β} : ∀ {xs : List α} {ys : List β}, xs.mapM f = .ok ys →
      Forall₂ (fun x y => f x = .ok y) xs ys := by
  intro xs
  induction xs with
  | nil =>
    intro ys h
    cases h
    exact .nil
  | cons x xs ih =>
    intro ys h
    rw [mapM_cons] at h
    obtain ⟨y, hy, h⟩ := bind_ok h
    obtain ⟨ys', hys, h⟩ := bind_ok h
    obtain rfl : y :: ys' = ys := Except.ok.inj h
    exact .cons hy (ih hys)

variable {xs : List α}

/-- A result of a computation over a list stems from one of its elements. -/
theorem mem_of_mapM_ok {f : α → Except ε β} {ys : List β}
    (h : xs.mapM f = .ok ys) {y : β} (hy : y ∈ ys) : ∃ x ∈ xs, f x = .ok y :=
  exists_of_forall₂ (mapM_ok h).flip hy

theorem mapM_ok_of_forall {f : α → Except ε β}
    (h : ∀ x ∈ xs, f x = .ok (g x)) : xs.mapM f = .ok (xs.map g) := by
  induction xs with
  | nil => rfl
  | cons x xs ih =>
    rw [mapM_cons, h x mem_cons_self, ih fun y hy => h y (mem_cons_of_mem x hy)]
    rfl

section

variable {f : β → α → Except ε β} {P : List α → β → Prop}
  (hstep : ∀ done x b b', P done b → f b x = .ok b' → P (done ++ [x]) b')
include hstep

/-- A fold that succeeds keeps what every step of it keeps. -/
theorem foldlM_ok :
    ∀ {xs done : List α} {b b' : β}, P done b → xs.foldlM f b = .ok b' → P (done ++ xs) b' := by
  intro xs
  induction xs with
  | nil =>
    intro done b b' hP h
    cases h
    rwa [append_nil]
  | cons x xs ih =>
    intro done b b' hP h
    rw [foldlM_cons] at h
    obtain ⟨c, hc, h⟩ := bind_ok h
    have hrest := ih (hstep done x b c hP hc) h
    rwa [append_assoc, singleton_append] at hrest

/-- A fold that succeeds keeps from its start what every step of it keeps. -/
theorem foldlM_ok_nil
    {b' : β} (hP : P [] b) (h : xs.foldlM f b = .ok b') : P xs b' :=
  foldlM_ok hstep hP h

end

/-- A fold over the first numbers succeeds if every step of it does. -/
theorem foldlM_range_ok {f : β → Nat → Except ε β} {P : Nat → β → Prop} (n : Nat)
    (hstep : ∀ i b, i < n → P i b → ∃ b', f b i = .ok b' ∧ P (i + 1) b') (hP : P 0 b) :
    ∃ b', (List.range n).foldlM f b = .ok b' ∧ P n b' := by
  induction n with
  | zero => exact ⟨b, rfl, hP⟩
  | succ n ih =>
    obtain ⟨b₁, hb₁, hP₁⟩ := ih fun i b hi => hstep i b (Nat.lt_succ_of_lt hi)
    obtain ⟨b₂, hb₂, hP₂⟩ := hstep n b₁ (Nat.lt_succ_self n) hP₁
    refine ⟨b₂, ?_, hP₂⟩
    rw [range_succ, foldlM_append, hb₁]
    show [n].foldlM f b₁ = _
    rw [foldlM_cons, hb₂]
    rfl

/-- A fold over the first numbers that succeeds keeps what every step keeps. -/
theorem foldlM_range_run {f : β → Nat → Except ε β} {P : Nat → β → Prop} {n : Nat} {b' : β}
    (hstep : ∀ i b b', P i b → f b i = .ok b' → P (i + 1) b') (hP : P 0 b)
    (h : (List.range n).foldlM f b = .ok b') : P n b' := by
  induction n generalizing b' with
  | zero =>
    cases h
    exact hP
  | succ n ih =>
    rw [range_succ, foldlM_append] at h
    obtain ⟨c, hc, h⟩ := bind_ok h
    rw [foldlM_cons] at h
    obtain ⟨d, hd, h⟩ := bind_ok h
    cases h
    exact hstep n c _ (ih hc) hd

/-- A computation over a list succeeds if it does on every element. -/
theorem exists_mapM_ok {f : α → Except ε β} : ∀ {xs : List α},
    (∀ x ∈ xs, ∃ y, f x = .ok y) → ∃ ys, xs.mapM f = .ok ys := by
  intro xs
  induction xs with
  | nil => exact fun _ => ⟨[], rfl⟩
  | cons x xs ih =>
    intro h
    obtain ⟨y, hy⟩ := h x (.head _)
    obtain ⟨ys, hys⟩ := ih fun z hz => h z (mem_cons_of_mem x hz)
    refine ⟨y :: ys, ?_⟩
    rw [mapM_cons, hy, hys]
    rfl

/-- A computation that keeps some results of a list and succeeds on every
element keeps them all. -/
theorem filterMapM_ok {f : α → Except ε (Option β)} {g : α → Option β}
    (h : ∀ x ∈ xs, f x = .ok (g x)) : xs.filterMapM f = .ok (xs.filterMap g) := by
  have hloop : ∀ (xs : List α) (acc : List β), (∀ x ∈ xs, f x = .ok (g x)) →
      filterMapM.loop f xs acc = .ok (acc.reverse ++ xs.filterMap g) := by
    intro xs
    induction xs with
    | nil => exact fun acc _ => by simp [filterMapM.loop, pure, Except.pure]
    | cons x xs ih =>
      intro acc h
      have hrest := fun z hz => h z (mem_cons_of_mem x hz)
      unfold filterMapM.loop
      rw [h x mem_cons_self, filterMap_cons]
      cases g x with
      | none => exact ih acc hrest
      | some y =>
        rw [show (acc.reverse ++ y :: xs.filterMap g) = (y :: acc).reverse ++ xs.filterMap g by
          simp]
        exact ih (y :: acc) hrest
  exact hloop xs [] h

/-- A check of a list that succeeds succeeds on every element. -/
theorem forM_ok {f : α → Except ε Unit} : ∀ {xs : List α},
    xs.forM f = .ok () → ∀ x ∈ xs, f x = .ok () := by
  intro xs
  induction xs with
  | nil => exact fun _ _ hx => nomatch hx
  | cons y xs ih =>
    intro h x hx
    obtain ⟨⟨⟩, hy, h⟩ := bind_ok (x := f y) (f := fun _ => xs.forM f) h
    rcases mem_cons.1 hx with rfl | hx
    · exact hy
    · exact ih h x hx

/-- A check of a list succeeds if it does on every element. -/
theorem forM_ok_iff {f : α → Except ε Unit} : xs.forM f = .ok () ↔ ∀ x ∈ xs, f x = .ok () := by
  refine ⟨forM_ok, fun h => ?_⟩
  induction xs with
  | nil => rfl
  | cons y xs ih =>
    have hy : (f y >>= fun _ => xs.forM f) = xs.forM f := by
      rw [h y mem_cons_self]
      rfl
    exact hy.trans (ih fun x hx => h x (mem_cons_of_mem y hx))

theorem ite_ok_iff {p : Prop} [Decidable p] {e : ε} :
    (if p then .ok () else .error e : Except ε Unit) = .ok () ↔ p := by
  split
  · next h => exact ⟨fun _ => h, fun _ => rfl⟩
  · next h => exact ⟨fun h => (by cases h), fun h' => absurd h' h⟩

/-- Two checks succeed if each does. -/
theorem check_bind_ok_iff {c : Except ε Unit} {d : Except ε Unit} :
    (c >>= fun _ => d) = .ok () ↔ c = .ok () ∧ d = .ok () := by
  cases c with
  | error e => exact ⟨fun h => (by cases h), fun h => (by cases h.1)⟩
  | ok u => exact ⟨fun h => ⟨rfl, h⟩, fun h => h.2⟩

-- ======== lookup

/-- What a name stands for in one list goes with what it stands for in another
one, if the lists go with each other one for one. -/
theorem lookup_rel {R : α → β → Prop} {ps : List (String × α)} {qs : List (String × β)}
    (h : Forall₂ (fun p q => p.1 = q.1 ∧ R p.2 q.2) ps qs) (name : String) :
    Option.Rel R (ps.lookup name) (qs.lookup name) := by
  induction h with
  | nil => exact .none
  | @cons p q ps qs hpq _ ih =>
    obtain ⟨n, a⟩ := p
    obtain ⟨n', b⟩ := q
    obtain ⟨rfl, hab⟩ := hpq
    rw [lookup_cons, lookup_cons]
    cases name == n with
    | true => exact .some hab
    | false => exact ih

end RefCount
