/-
How the compilation of a match may fail. The weight of a matrix bounds the steps
(`Weight`), as long as literals are equal to themselves, so that a test that was
made is not made again; then the steps do not run out, and more of them change
nothing. Any other failure is about the rows, and is one of those that they do
not rule out (`Confines`).

# Patterns of a type

A match whose patterns suit its type has a decision tree (`exists_compile`). Rows
are as wide as there are occurrences, so that no column is missing, and patterns
of a column are of one type, so that a value is switched on only where every
literal has one.
-/
import RefCount.Proofs.Match.Suits

namespace RefCount.Match

open List

variable {Θ : Typing} {L : Literal → Prop} {guarded : List Bool} {rows rows' : List Row}
  {occs : List Occurrence} {first r : Row} {rest : List Row} {col n : Nat} {o : Occurrence}
  {p : Pattern}

-- ======== computations that agree

section Agree

variable {ε α β : Type} {E : ε → Prop} {x y : Except ε α}

/-- Two computations come to the same, and fail only for causes in `E`. -/
structure Agree (E : ε → Prop) (x y : Except ε α) : Prop where
  eq : x = y
  fails : ∀ e, x = .error e → E e

/-- If a computation fails, it is in one of some ways. -/
abbrev FailsIn (E : ε → Prop) (x : Except ε α) : Prop := Agree E x x

theorem Agree.ok (a : α) : FailsIn E (.ok a) := ⟨rfl, fun _ h => by cases h⟩

theorem Agree.error {e : ε} (h : E e) : FailsIn E (.error e : Except ε α) :=
  ⟨rfl, fun _ heq => Except.error.inj heq ▸ h⟩

/-- Computations that agree go on with computations that agree. -/
theorem Agree.bind {f g : α → Except ε β} (h : Agree E x y)
    (hf : ∀ a, x = .ok a → Agree E (f a) (g a)) : Agree E (x >>= f) (y >>= g) := by
  obtain ⟨rfl, hE⟩ := h
  cases x with
  | error e => exact .error (hE e rfl)
  | ok a => exact hf a rfl

/-- Over a list they agree if they do on every element. -/
theorem Agree.mapM {f g : α → Except ε β} {xs : List α} (h : ∀ a ∈ xs, Agree E (f a) (g a)) :
    Agree E (xs.mapM f) (xs.mapM g) := by
  induction xs with
  | nil => exact .ok []
  | cons a xs ih =>
    rw [mapM_cons, mapM_cons]
    exact (h a mem_cons_self).bind fun b _ =>
      (ih fun a ha => h a (mem_cons_of_mem _ ha)).bind fun bs _ => .ok (b :: bs)

/-- A fold fails in one of the ways in which a step fails. -/
theorem Agree.foldlM {f : β → α → Except ε β} {xs : List α}
    (h : ∀ b, ∀ a ∈ xs, FailsIn E (f b a)) (b : β) : FailsIn E (xs.foldlM f b) := by
  induction xs generalizing b with
  | nil => exact .ok b
  | cons a xs ih =>
    rw [foldlM_cons]
    exact (h b a mem_cons_self).bind fun c _ => ih (fun b a ha => h b a (mem_cons_of_mem _ ha)) c

theorem Agree.orFault {E : MatchError → Prop} {x : Except Fault α}
    (h : FailsIn (fun f => E (.fault f)) x) : FailsIn E (orFault x) := by
  cases x with
  | ok a => exact .ok a
  | error f => exact .error (h.fails f rfl)

end Agree

-- ======== steps

section Steps

variable {E : Fault → Prop}

/-- A pattern of a row is looked up in vain only behind the last one. -/
theorem column_agrees (h : E .index ∨ col < r.patterns.length) : FailsIn E (r.column col) := by
  rw [Row.column]
  split
  · exact .ok _
  · next hnone => exact .error (h.resolve_right (Nat.not_lt_of_le (getElem?_eq_none_iff.1 hnone)))

/-- Only a literal that can be switched on has a value to switch on. -/
theorem switchValue_agrees {v : Literal} (h : E .literal ∨ isSwitchable v = true) :
    FailsIn E (switchValue v) := by
  cases v with
  | int | bool | char => exact .ok _
  | _ => exact .error (h.resolve_right Bool.false_ne_true)

/-- A row becomes normal if it has a pattern for every occurrence. -/
theorem normalRows_agrees {arm : Nat} : ∀ {ps : List Pattern} {occs : List Occurrence}
    (done : List Pattern) (bindings : List Binding), E .index ∨ ps.length = occs.length →
    FailsIn E (normalRows arm done bindings ps occs)
  | [], _, _, _, _ => .ok _
  | p :: ps, occs, done, bindings, h => by
    rw [normalRows]
    cases occs with
    | nil =>
      have hE := h.resolve_right (Nat.succ_ne_zero _)
      split
      · exact .error hE
      · exact (Agree.mapM fun c _ => normalRows_agrees _ _ (.inl hE)).bind fun _ _ => .ok _
    | cons o occs =>
      exact (Agree.mapM fun c _ => normalRows_agrees _ _ (h.imp_right Nat.succ.inj)).bind
        fun _ _ => .ok _

/-- The same of all rows. -/
theorem normalize_agrees (h : ∀ r ∈ rows, E .index ∨ r.patterns.length = occs.length) :
    FailsIn E (normalize rows occs) :=
  (Agree.mapM fun r hr => normalRows_agrees _ _ (h r hr)).bind fun _ _ => .ok _

/-- A column is found if the rows are of one length. -/
theorem pickColumn_agrees (h : ∀ r ∈ first :: rest, E .index ∨ r.patterns.length = n) :
    FailsIn E (pickColumn (first :: rest)) := by
  refine (Agree.foldlM (fun best c hc => ?_) none).bind fun _ _ => .ok _
  dsimp only
  split
  · exact .ok _
  · refine (Agree.mapM fun r hr => column_agrees ?_).bind fun column _ => ?_
    · rcases h r hr with hE | hlen
      · exact .inl hE
      refine (h first mem_cons_self).imp_right fun hfirst => ?_
      rw [hlen, ← hfirst]
      exact (List.getElem?_eq_some_iff.1 (mem_zipIdx_iff_getElem?.1 hc)).1
    · split <;> exact .ok _

section Splits

variable (hcol : ∀ r ∈ rows, E .index ∨ col < r.patterns.length)
include hcol

/-- Rows that are kept or dropped by what stands in a column. -/
theorem rows_agree {g : Row → Pattern → Except Fault (Option Row)}
    (hg : ∀ r ∈ rows, ∀ p, r.patterns[col]? = some p → FailsIn E (g r p)) :
    FailsIn E (rows.mapM (fun r => r.column col >>= g r) >>= fun os => pure (os.filterMap id)) :=
  (Agree.mapM fun r hr => (column_agrees (hcol r hr)).bind fun p hp =>
    hg r hr p (Row.column_ok hp)).bind fun _ _ => .ok _

/-- Rows for a variant. -/
theorem specialize_agrees (arity : Nat) (variant : Int) :
    FailsIn E (specialize rows col arity variant) :=
  rows_agree hcol fun _ _ p _ => by cases p <;> exact .ok _

/-- Rows for what no case is for. -/
theorem defaults_agrees : FailsIn E (defaults rows col) := rows_agree hcol fun _ _ _ _ => .ok _

/-- Rows for a test that holds. -/
theorem whereHolds_agrees : FailsIn E (whereHolds rows col p) :=
  rows_agree hcol fun _ _ _ _ => .ok _

/-- Rows for a test that fails. -/
theorem whereFails_agrees : FailsIn E (whereFails rows col p) :=
  rows_agree hcol fun _ _ _ _ => .ok _

/-- Rows for a value, if the literals of the column have values. -/
theorem whereValue_agrees (value : Int64) (hlit : ∀ r ∈ rows, ∀ v,
      r.patterns[col]? = some (.lit v) → E .literal ∨ isSwitchable v = true) :
    FailsIn E (whereValue rows col value) := by
  refine rows_agree hcol fun r hr p hp => ?_
  cases p with
  | lit v => exact (switchValue_agrees (hlit r hr v hp)).bind fun _ _ => .ok _
  | _ => exact .ok _

end Splits

/-- The values of a column, if its literals have values. -/
theorem testedValues_agrees {column : List Pattern}
    (hlit : ∀ v, Pattern.lit v ∈ column → E .literal ∨ isSwitchable v = true) :
    FailsIn E (testedValues column) := by
  refine (Agree.mapM fun p hp => ?_).bind fun _ _ => .ok _
  cases p with
  | lit v => exact (switchValue_agrees (hlit v hp)).bind fun _ _ => .ok _
  | _ => exact .ok _

end Steps

-- ======== compilation

/-- What is asked of rows for the compilation of a match to fail only for causes
in `E`: each cause is among them, or the rows rule it out. -/
structure Confines (pool : Pool) (E : MatchError → Prop) (I : List Occurrence → Row → Prop) : Prop
    extends Kept pool I where
  width : ∀ {occs r}, I occs r → E (.fault .index) ∨ r.patterns.length = occs.length
  shape : ∀ {occs r} {col : Nat} {o : Occurrence} {p : Pattern},
    I occs r → occs[col]? = some o → r.patterns[col]? = some p →
    Normal p → p ≠ .wild → E (.fault .type) ∨ ∃ d, pool.shape? o.type = some d
  present : ∀ {occs r} {col : Nat} {o : Occurrence}, I occs r → occs[col]? = some o →
    r.patterns[col]? = some .missing → E .missingPattern
  values : ∀ {occs r r'} {col : Nat} {o : Occurrence} {v w : Literal}, I occs r → I occs r' →
    occs[col]? = some o → r.patterns[col]? = some (.lit v) → r'.patterns[col]? = some (.lit w) →
    isSwitchable v = true → E (.fault .literal) ∨ isSwitchable w = true
  same : ∀ {occs r} {col : Nat} {o : Occurrence} {v : Literal}, I occs r → occs[col]? = some o →
    r.patterns[col]? = some (.lit v) → v.same v = true

/-- The column that was picked is one of every row. -/
theorem Confines.column_lt {pool : Pool} {E : MatchError → Prop} {I : List Occurrence → Row → Prop}
    (hI : Confines pool E I) (hrows : ∀ r ∈ first :: rest, I occs r)
    (hp : first.patterns[col]? = some p) :
    ∀ r ∈ first :: rest, E (.fault .index) ∨ col < r.patterns.length := by
  intro r hr
  rcases hI.width (hrows r hr) with hE | hlen
  · exact .inl hE
  refine (hI.width (hrows first mem_cons_self)).imp_right fun hfirst => ?_
  rw [hlen, ← hfirst]
  exact (List.getElem?_eq_some_iff.1 hp).1

/-- More steps than the weight of the rows change nothing, and compilation
fails only in the ways that its matrices allow. By induction on the steps. -/
theorem compileWithin_agrees {pool : Pool} {E : MatchError → Prop}
    {I : List Occurrence → Row → Prop} (hI : Confines pool E I) {a : Nat} :
    ∀ {b : Nat} {rows : List Row} {occs : List Occurrence}, (∀ r ∈ rows, I occs r) →
      matrixWeight rows < a → matrixWeight rows < b →
      Agree E (compileWithin pool guarded a rows occs) (compileWithin pool guarded b rows occs) := by
  induction a with
  | zero => exact fun _ hlt => absurd hlt (Nat.not_lt_zero _)
  | succ a ih =>
    intro b rows₀ occs hrows₀ ha hb
    obtain ⟨b, rfl⟩ : ∃ b', b = b' + 1 := ⟨b - 1, by omega⟩
    rw [compileWithin, compileWithin]
    refine (normalize_agrees fun r hr => hI.width (hrows₀ r hr)).orFault.bind fun rows hnorm => ?_
    have hnorm := orFault_ok hnorm
    have hrows := hI.normalize hrows₀ hnorm
    rw [← normalize_weight hnorm] at ha hb
    cases rows with
    | nil => exact .ok _
    | cons first rest =>
      have hn := normalize_normal hnorm first mem_cons_self
      -- what a split leaves is lighter
      have hnext {rows' : List Row} {occs' : List Occurrence} (hr : ∀ r ∈ rows', I occs' r)
          (hw : matrixWeight rows' < matrixWeight (first :: rest)) :
          Agree E (compileWithin pool guarded a rows' occs')
            (compileWithin pool guarded b rows' occs') := ih hr (by omega) (by omega)
      refine (pickColumn_agrees fun r hr => hI.width (hrows r hr)).orFault.bind
        fun picked hpicked => ?_
      cases picked with
      | none =>
        have hrest := hnext (fun r hr => hrows r (mem_cons_of_mem _ hr)) (by
          have := weightOfAll_pos hn
          rw [matrixWeight]
          omega)
        dsimp only
        split
        · exact hrest.bind fun _ _ => .ok _
        · exact .ok _
      | some col =>
        obtain ⟨p, hp, hwild⟩ := (pickColumn_ok (orFault_ok hpicked)).2 col rfl
        have hfirst := hrows first mem_cons_self
        have hcol := hI.column_lt hrows hp
        have hocc : FailsIn E (occurrenceAt occs col) := by
          rw [occurrenceAt]
          split
          · exact .ok _
          · next hnone =>
            refine .error ((hI.width hfirst).resolve_right fun hlen => ?_)
            have hlt := (List.getElem?_eq_some_iff.1 hp).1
            exact absurd (getElem?_eq_none_iff.1 hnone) (by omega)
        refine hocc.bind fun o ho => ?_
        have ho := occurrenceAt_ok ho
        have hshape : FailsIn E (shapeAt pool o) := by
          rw [shapeAt]
          split
          · exact .ok _
          · next hnone =>
            refine .error
              ((hI.shape hfirst ho hp (hn p (mem_of_getElem? hp)) hwild).resolve_right ?_)
            rintro ⟨d, hd⟩
            rw [hnone] at hd
            cases hd
        refine hshape.bind fun shape _ => ?_
        refine (Agree.mapM fun r hr => column_agrees (hcol r hr)).orFault.bind
          fun column hcolumn => ?_
        refine (column_agrees (hcol first mem_cons_self)).orFault.bind fun q hq => ?_
        cases hp.symm.trans (Row.column_ok (orFault_ok hq))
        -- the rows for all other values, and those on both sides of a test
        have hdefault (build : Tree → Tree) := (defaults_agrees hcol).orFault.bind fun _ h =>
          (hnext (hI.defaults hrows (orFault_ok h))
            (defaults_weight_lt hn (orFault_ok h) hp hwild)).bind fun tree _ => .ok (build tree)
        have htest (hself : covers p p = true) (test : Test) :=
          (whereHolds_agrees hcol).orFault.bind fun _ h => (whereFails_agrees hcol).orFault.bind
            fun _ h' => (hnext (hI.whereHolds hrows ho (orFault_ok h))
              (whereHolds_weight_lt hn hp hself (orFault_ok h))).bind fun thenTree _ =>
                (hnext (fun r hr => hrows r (mem_of_whereFails (orFault_ok h') hr))
                  (whereFails_weight_lt hn hp hself (orFault_ok h'))).bind fun elseTree _ =>
                    .ok (Tree.test o test thenTree elseTree)
        -- what stands in the column decides how it is split
        cases p with
        | variant u i ps =>
          have hvariant {rows' : List Row} (variant : Int) (h : orFault (specialize
              (first :: rest) col (fieldTypes pool o variant).length variant) = .ok rows') :=
            hnext (hI.specialize hrows ho (orFault_ok h)) (specialize_weight_lt hn (orFault_ok h) hp)
          cases shape with
          | enum n vs =>
            refine (Agree.ok _).bind fun split hsplit => ?_
            cases hsplit
            refine (Agree.mapM fun variant _ => ?_).bind fun cases _ => ?_
            · exact (specialize_agrees hcol _ _).orFault.bind fun _ h =>
                (hvariant variant h).bind fun _ _ => .ok _
            · split
              · exact .ok _
              · exact hdefault _
          | _ =>
            refine (Agree.ok _).bind fun split hsplit => ?_
            cases hsplit
            exact (specialize_agrees hcol _ _).orFault.bind fun _ h => hvariant 0 h
        | lit v =>
          rw [splitOf]
          split
          · next hswitch =>
            have hv := (Bool.and_eq_true_iff.1 hswitch).2
            refine (Agree.ok _).bind fun split hsplit => ?_
            cases hsplit
            refine (testedValues_agrees fun w hw => ?_).orFault.bind fun tested _ =>
              (Agree.mapM fun value _ => ?_).bind fun cases _ => ?_
            · obtain ⟨r, hr, hrw⟩ := mem_of_mapM_ok (orFault_ok hcolumn) hw
              exact hI.values hfirst (hrows r hr) ho hp (Row.column_ok hrw) hv
            · exact (whereValue_agrees hcol value fun r hr w hw =>
                hI.values hfirst (hrows r hr) ho hp hw hv).orFault.bind fun _ h =>
                  (hnext (hI.whereValue hrows (orFault_ok h))
                    (whereValue_weight_lt hn (orFault_ok h) hp)).bind fun _ _ => .ok _
            · split
              · exact .ok _
              · exact hdefault _
          · refine (Agree.ok _).bind fun split hsplit => ?_
            cases hsplit
            exact htest (covers_lit (hI.same hfirst ho hp)) _
        | range low high =>
          refine (Agree.ok _).bind fun split hsplit => ?_
          cases hsplit
          exact htest (covers_range _ _) _
        | wild => exact absurd rfl hwild
        | missing => exact .error (hI.present hfirst ho hp)
        | _ => exact (hn _ (mem_of_getElem? hp)).elim

-- ======== patterns of a type

theorem exists_shape {τ : TypeId} {i : Int} {τs : List TypeId}
    (hi : Θ.pool.fields τ i = .ok τs) : ∃ d, Θ.pool.shape? τ = some d := by
  cases hd : Θ.pool.shape? τ with
  | none => simp [Pool.fields, hd] at hi
  | some d => exact ⟨d, rfl⟩

/-- Only enumerations have more than one variant. -/
theorem variant_eq_zero {τ : TypeId} {d : TypeDef} {i : Int} {τs : List TypeId}
    (hd : Θ.pool.shape? τ = some d) (hnot : ∀ n vs, d ≠ .enum n vs)
    (hi : Θ.pool.fields τ i = .ok τs) : i = 0 := by
  rw [Pool.fields, hd] at hi
  cases d with
  | tuple es =>
    dsimp only at hi
    split at hi
    · assumption
    · cases hi
  | enum n vs => exact absurd rfl (hnot n vs)
  | record n fs =>
    dsimp only [Pool.at?, TypeDef.variants] at hi
    split at hi
    · next w hw =>
      split at hw
      · cases hw
      · have hlt := (List.getElem?_eq_some_iff.1 hw).1
        cases fs <;> simp at hlt
        omega
    · cases hi
  | _ =>
    dsimp only [Pool.at?, TypeDef.variants] at hi
    split at hi
    · next w hw => split at hw <;> cases hw
    · cases hi

theorem isSwitchable_of_fits {t : TypeId} {v w : Literal} (hv : Θ.LitFits v t)
    (hw : Θ.LitFits w t) (h : isSwitchable v = true) : isSwitchable w = true := by
  have hkind := TypeDef.builtin.inj (Option.some.inj (hv.symm.trans hw))
  cases w with
  | int | bool | char => rfl
  | _ => cases v <;> first | cases h; done | cases hkind

/-- Rows that suit their occurrences lead to no failure at all. -/
theorem suits_confines (hL : ∀ v, L v → v.same v = true) :
    Confines Θ.pool (fun _ => False) (RowSuits Θ L) where
  toKept := suits_kept
  width h := .inr h.length_eq
  shape h ho hp hn hwild := by
    cases h.pattern ho hp with
    | wild => exact absurd rfl hwild
    | lit hv _ => exact .inr ⟨_, hv⟩
    | range ht => exact .inr ⟨_, ht⟩
    | variant hf _ => exact .inr (exists_shape hf)
    | _ => exact hn.elim
  present h ho hp := nomatch h.pattern ho hp
  values h h' ho hv hw hs := by
    cases h.pattern ho hv with
    | lit hv _ =>
      cases h'.pattern ho hw with
      | lit hw _ => exact .inr (isSwitchable_of_fits hv hw hs)
  same h ho hp := by
    cases h.pattern ho hp with
    | lit _ hLv => exact hL _ hLv

/-- Patterns that suit a type have a decision tree. -/
theorem exists_compile (hL : ∀ v, L v → v.same v = true) {type : TypeId}
    {patterns : List Pattern} (hp : ∀ p ∈ patterns, Suits Θ L type p) (guarded : List Bool) :
    ∃ tree, compile Θ.pool type patterns guarded = .ok tree := by
  have hfails : ∀ e, compile Θ.pool type patterns guarded = .error e → False :=
    (compileWithin_agrees (suits_confines hL) (rowsOf_suit hp) (Nat.lt_succ_self _)
      (Nat.lt_succ_self _)).fails
  cases htree : compile Θ.pool type patterns guarded with
  | ok tree => exact ⟨tree, rfl⟩
  | error e => exact (hfails e htree).elim

end RefCount.Match
