/-
Which patterns values of a type can be matched with. Nothing is asked of the
names that patterns bind: alternatives may bind different ones, and a name may
be bound twice.

# The invariant

The rows of a matrix suit the types of its occurrences, column by column
(`RowsSuit`). Every step of the compilation of a match replaces columns by
others; what is kept when columns are replaced (`Kept`) is kept by all steps,
and that rows suit is (`suits_kept`).
-/
import Mathlib
import RefCount.Proofs.Match.Weight

namespace RefCount.Match

open List Option Except

-- ======== patterns

/-- Values of a type can be matched with a pattern: literals and ranges are of
the type, and variants are among those of the type and have their fields. Of
the literals also `L` is asked. -/
inductive Suits (Θ : Typing) (L : Literal → Prop) : TypeId → Pattern → Prop
  | wild {t : TypeId} : Suits Θ L t .wild
  | bind {t : TypeId} {name : String} : Suits Θ L t (.bind name)
  | lit {t : TypeId} {v : Literal} (hv : Θ.LitFits v t) (hL : L v) : Suits Θ L t (.lit v)
  | range {t : TypeId} {low high : Int64} (ht : Θ.Is .int t) : Suits Θ L t (.range low high)
  | variant {t u : TypeId} {i : Int} {ts : List TypeId} {ps : List Pattern}
      (hf : Θ.pool.fields t i = .ok ts) (hp : List.Forall₂ (Suits Θ L) ts ps) :
      Suits Θ L t (.variant u i ps)
  | as {t : TypeId} {name : String} {p : Pattern} (hp : Suits Θ L t p) :
      Suits Θ L t (.as name p)
  | or {t : TypeId} {ps : List Pattern} (hp : ∀ p ∈ ps, Suits Θ L t p) : Suits Θ L t (.or ps)

variable {Θ : Typing} {L : Literal → Prop}

mutual

/-- What a choice leaves of a pattern suits where the pattern does. -/
theorem Suits.choices {t : TypeId} {occ : Occurrence} : ∀ {p : Pattern}, Suits Θ L t p →
    ∀ c ∈ choices occ p, Suits Θ L t c.1
  | .bind name, _, c, hc => by
    obtain rfl := mem_singleton.1 hc
    exact .wild
  | .as name p, h, c, hc => by
    obtain ⟨c', hc', rfl⟩ := mem_map.1 hc
    cases h with
    | as h => exact Suits.choices h c' hc'
  | .or ps, h, c, hc => by
    cases h with
    | or h => exact suits_choicesOfAny h c hc
  | .missing, h, c, hc => nomatch h
  | .wild, h, c, hc => mem_singleton.1 hc ▸ h
  | .lit v, h, c, hc => mem_singleton.1 hc ▸ h
  | .range low high, h, c, hc => mem_singleton.1 hc ▸ h
  | .variant u i ps, h, c, hc => mem_singleton.1 hc ▸ h

theorem suits_choicesOfAny {t : TypeId} {occ : Occurrence} : ∀ {ps : List Pattern},
    (∀ p ∈ ps, Suits Θ L t p) → ∀ c ∈ choicesOfAny occ ps, Suits Θ L t c.1
  | [], _, c, hc => nomatch hc
  | p :: ps, h, c, hc => by
    rcases mem_append.1 hc with hc | hc
    · exact Suits.choices (h p (.head _)) c hc
    · exact suits_choicesOfAny (fun q hq => h q (.tail _ hq)) c hc

end

-- ======== rows

/-- The patterns of a row suit the types of occurrences. -/
def RowSuits (Θ : Typing) (L : Literal → Prop) (occs : List Occurrence) (r : Row) : Prop :=
  List.Forall₂ (Suits Θ L) (occs.map (·.type)) r.patterns

/-- The rows of a matrix suit its occurrences. -/
def RowsSuit (Θ : Typing) (L : Literal → Prop) (occs : List Occurrence) (rows : List Row) : Prop :=
  ∀ r ∈ rows, RowSuits Θ L occs r

variable {rows rows' : List Row} {occs news : List Occurrence} {col : Nat} {o : Occurrence}
  {r : Row} {p : Pattern}

/-- There is a pattern for every occurrence. -/
theorem RowSuits.length_eq (h : RowSuits Θ L occs r) : r.patterns.length = occs.length := by
  rw [← Forall₂.length_eq h, length_map]

/-- The pattern in a column suits the type of its occurrence. -/
theorem RowSuits.pattern (h : RowSuits Θ L occs r) (ho : occs[col]? = some o)
    (hp : r.patterns[col]? = some p) : Suits Θ L o.type p := by
  obtain ⟨hlen, hget⟩ := forall₂_iff_get.1 h
  obtain ⟨hlt, rfl⟩ := List.getElem?_eq_some_iff.1 ho
  obtain ⟨hlt', rfl⟩ := List.getElem?_eq_some_iff.1 hp
  simpa using hget col (by simpa using hlt) hlt'

/-- A row with a column replaced by others. -/
theorem RowSuits.splice {ps : List Pattern} (h : RowSuits Θ L occs r)
    (hnew : Forall₂ (Suits Θ L) (news.map (·.type)) ps) :
    RowSuits Θ L (splice occs col news) (r.splice col ps) := by
  rw [RowSuits, Match.splice, map_append, map_append, map_take, map_drop]
  exact rel_append (rel_append (forall₂_take col h) hnew) (forall₂_drop (col + 1) h)

/-- A column is replaced by the fields of a variant. -/
theorem RowSuits.expand {o : Occurrence} {i : Int} {ts : List TypeId} {ps : List Pattern}
    (h : RowSuits Θ L occs r) (hs : Forall₂ (Suits Θ L) ts ps) :
    RowSuits Θ L (expandOccurrences occs col o i ts) (r.splice col ps) := by
  rw [← fieldOccurrences_types o i ts] at hs
  exact h.splice hs

/-- What is chosen suits as well. -/
theorem Chosen.suits {ps : List Pattern} {cs : List (Pattern × List Binding)}
    (h : Chosen occs ps cs) (hps : Forall₂ (Suits Θ L) (occs.map (·.type)) ps) :
    Forall₂ (Suits Θ L) (occs.map (·.type)) (cs.map (·.1)) := by
  induction h with
  | nil => exact hps
  | @cons occs _ _ _ _ hc _ ih =>
    cases occs with
    | nil => cases hps
    | cons o occs =>
      obtain ⟨hp, hps⟩ := forall₂_cons.1 hps
      exact .cons (hp.choices _ hc) (ih hps)

theorem suits_wild (ts : List TypeId) :
    Forall₂ (Suits Θ L) ts (List.replicate ts.length .wild) := by
  induction ts with
  | nil => exact .nil
  | cons t ts ih => exact .cons .wild ih

-- ======== steps

/-- What the steps of a compilation keep of the rows at occurrences: it may be
chosen in every column, and a column may be dropped, passed, or replaced by
those of a variant. -/
structure Kept (pool : Pool) (I : List Occurrence → Row → Prop) : Prop where
  chosen : ∀ {occs r cs bindings arm}, I occs r → Chosen occs r.patterns cs →
    I occs ⟨cs.map (·.1), bindings, arm⟩
  dropped : ∀ {occs r} (col), I occs r → I (splice occs col []) (r.splice col [])
  passed : ∀ {occs r col o}, I occs r → occs[col]? = some o → I occs (r.splice col [.wild])
  fields : ∀ {occs r col o u i ps}, I occs r → occs[col]? = some o →
    r.patterns[col]? = some (.variant u i ps) →
    I (expandOccurrences occs col o i (fieldTypes pool o i)) (r.splice col ps)
  wilds : ∀ {occs r} (col o i ts), I occs r →
    I (expandOccurrences occs col o i ts) (r.splice col (replicate ts.length .wild))

/-- That rows suit is kept by everything that is done to a matrix. -/
theorem suits_kept : Kept Θ.pool (RowSuits Θ L) where
  chosen h hcs := hcs.suits h
  dropped _ h := h.splice .nil
  passed {occs r col o} h ho := by
    have hnew : RowSuits Θ L (splice occs col [o]) (r.splice col [.wild]) :=
      h.splice (.cons .wild .nil)
    rwa [splice_self ho] at hnew
  fields {occs r col o u i ps} h ho hp := by
    cases h.pattern ho hp with
    | variant hf hs =>
      rw [fieldTypes_of_fields hf]
      exact h.expand hs
  wilds _ o i ts h := h.expand (suits_wild ts)

theorem mem_of_whereFails {test : Pattern} (h : whereFails rows col test = .ok rows')
    (hr : r ∈ rows') : r ∈ rows := by
  obtain ⟨r', hmem, p, -, hrun⟩ := mem_rows h hr
  have hrun := ok.inj hrun
  split at hrun
  · exact some.inj hrun ▸ hmem
  · cases hrun

namespace Kept

variable {pool : Pool} {I : List Occurrence → Row → Prop} (hI : Kept pool I)
  (hr : ∀ r ∈ rows, I occs r)
include hI hr

/-- What rows keep is kept when they become normal. -/
theorem normalize (h : normalize rows occs = .ok rows') : ∀ r ∈ rows', I occs r := by
  intro r' hr'
  obtain ⟨r, hmem, cs, hcs, rfl⟩ := normalize_chosen h hr'
  exact hI.chosen (hr r hmem) hcs

/-- It is kept for a variant. -/
theorem specialize {variant : Int} (ho : occs[col]? = some o)
    (h : specialize rows col (fieldTypes pool o variant).length variant = .ok rows') :
    ∀ r ∈ rows', I (expandOccurrences occs col o variant (fieldTypes pool o variant)) r := by
  intro r' hr'
  obtain ⟨r, hmem, p, hcol, hrun⟩ := mem_rows h hr'
  split at hrun
  · split at hrun
    · next hi =>
      cases hrun
      subst hi
      exact hI.fields (hr r hmem) ho hcol
    · cases hrun
  · cases hrun
    exact hI.wilds _ _ _ _ (hr r hmem)
  · cases hrun

/-- It is kept where no case is for a value. -/
theorem defaults (h : defaults rows col = .ok rows') : ∀ r ∈ rows', I (splice occs col []) r := by
  intro r' hr'
  obtain ⟨r, hmem, p, -, hrun⟩ := mem_rows h hr'
  split at hrun
  · cases hrun
    exact hI.dropped col (hr r hmem)
  · cases hrun

/-- It is kept for a value. -/
theorem whereValue {value : Int64} (h : whereValue rows col value = .ok rows') :
    ∀ r ∈ rows', I (splice occs col []) r := by
  intro r' hr'
  obtain ⟨r, hmem, p, -, hrun⟩ := mem_rows h hr'
  split at hrun
  · cases hrun
    exact hI.dropped col (hr r hmem)
  · obtain ⟨n, -, hrun⟩ := bind_ok hrun
    split at hrun
    · cases hrun
      exact hI.dropped col (hr r hmem)
    · cases hrun
  · cases hrun

/-- It is kept where a test holds. -/
theorem whereHolds {test : Pattern} (ho : occs[col]? = some o)
    (h : whereHolds rows col test = .ok rows') : ∀ r ∈ rows', I occs r := by
  intro r' hr'
  obtain ⟨r, hmem, p, -, hrun⟩ := mem_rows h hr'
  have hrun := ok.inj hrun
  split at hrun
  · exact some.inj hrun ▸ hr r hmem
  split at hrun
  · cases hrun
    exact hI.passed (hr r hmem) ho
  split at hrun
  · cases hrun
  · exact some.inj hrun ▸ hr r hmem

end Kept

/-- The rows of a match suit its scrutinee. -/
theorem rowsOf_suit {type : TypeId} {patterns : List Pattern}
    (h : ∀ p ∈ patterns, Suits Θ L type p) : RowsSuit Θ L [⟨[], type⟩] (rowsOf patterns) := by
  intro r hr
  obtain ⟨⟨p, i⟩, hp, rfl⟩ := mem_map.1 hr
  exact .cons (h p (mem_of_getElem? (mem_zipIdx_iff_getElem?.1 hp))) .nil

end RefCount.Match
