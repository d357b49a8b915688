/-
Interning is canonical. Whatever was asked of a pool before, two structural
calls give the same number exactly if they are the same call, a call made again
changes nothing, a call changes no type but the one that it defines, and no two
types are written alike.

# The argument

A structural type is found by its written form, so all rests on forms being
unambiguous. A form ends where a blank or a closing parenthesis follows, and a
form with something that starts so behind it can be read in one way only
(`spell_append_inj`). A structural type has earlier parts, so by induction on
the number its parts are known from the form; a named type is known from its
name, as no name is declared twice. What a form is does not change later: a
definition changes no form, and new types have new numbers (`Grows`).
-/
import Mathlib
import RefCount.Proofs.Outcome
import RefCount.Proofs.Text.Reading
import RefCount.Types.Pool

namespace RefCount

open List

namespace TypeDef

variable {d d' : TypeDef} {f g : TypeId → String}

-- ======== written forms

/-- The types that are written by their names alone. -/
def isNamed : TypeDef → Bool
  | builtin _ | record _ _ | enum _ _ | synonym _ _ => true
  | _ => false

/-- The types that are written in the form of a type. -/
def parts : TypeDef → List TypeId
  | list e => [e]
  | fn ps r => r :: ps
  | tuple es => es
  | _ => []

/-- The form of a type, given those of its parts. -/
def spell (f : TypeId → String) : TypeDef → String
  | list e => "(list " ++ f e ++ ")"
  | fn ps r => "(fn (" ++ " ".intercalate (ps.map f) ++ ") " ++ f r ++ ")"
  | tuple es => "(" ++ " ".intercalate ("tuple" :: es.map f) ++ ")"
  | var n => "(var " ++ n ++ ")"
  | d => d.name

theorem spell_of_isNamed (h : d.isNamed = true) : d.spell f = d.name := by
  cases d <;> first | rfl | cases h

/-- A form depends on the names of the parts only. -/
theorem spell_congr (h : ∀ e ∈ d.parts, f e = g e) : d.spell f = d.spell g := by
  cases d with
  | list e => rw [spell, spell, h e mem_cons_self]
  | fn ps r =>
    have hps : ps.map f = ps.map g := map_congr_left fun e he => h e (mem_cons_of_mem r he)
    rw [spell, spell, h r mem_cons_self, hps]
  | tuple es =>
    have hes : es.map f = es.map g := map_congr_left h
    rw [spell, spell, hes]
  | _ => rfl

/-- A type as it is written: without its definition, if it has a name. -/
def look : TypeDef → TypeDef
  | record n _ => record n none
  | enum n _ => enum n none
  | synonym n _ => synonym n none
  | d => d

theorem look_of_structural (h : d.isNamed = false) : d.look = d := by
  cases d <;> first | rfl | cases h

theorem look_of_kind {k : Kind} (h : d.kind = k) :
    match k with
    | .record => d.look = record d.name none
    | .enum => d.look = enum d.name none
    | .synonym => d.look = synonym d.name none
    | _ => True := by
  cases d with
  | builtin b => cases b <;> cases h <;> trivial
  | _ => (cases h; trivial)

theorem isNamed_look : d.look.isNamed = d.isNamed := by cases d <;> rfl

theorem name_look : d.look.name = d.name := by cases d <;> rfl

theorem parts_look : d.look.parts = d.parts := by cases d <;> rfl

theorem kind_look : d.look.kind = d.kind := by cases d <;> rfl

theorem spell_look : d.look.spell f = d.spell f := by cases d <;> rfl

theorem isDefined_of_structural (h : d.isNamed = false) : d.isDefined = true := by
  cases d <;> first | rfl | cases h

-- ======== one way to read a form

/-- A name without blanks and parentheses. -/
def Clean (n : String) : Prop := n ≠ "" ∧ ∀ c ∈ n.toList, c ≠ ' ' ∧ c ≠ '(' ∧ c ≠ ')'

/-- What may stand behind a form. -/
def Ends (s : List Char) : Prop := ∀ c ∈ s.head?, c = ' ' ∨ c = ')'

/-- A form starts with something that could not end the one before. -/
def Starts (x : String) : Prop := ∃ c cs, x.toList = c :: cs ∧ c ≠ ')'

/-- Two types are the same if their forms are, with something behind them that
ends a form. -/
abbrev Reads (f : TypeId → String) : TypeId → TypeId → Prop := Text.Reads Ends fun a => (f a).toList

theorem ends_blank {s : List Char} : Ends (' ' :: s) := by simp [Ends]

theorem ends_close {s : List Char} : Ends (')' :: s) := by simp [Ends]

/-- A clean name is known if a form ends behind it. -/
theorem clean_append_inj {m n : String} {s t : List Char} (hm : Clean m) (hn : Clean n)
    (hs : Ends s) (ht : Ends t) (h : m.toList ++ s = n.toList ++ t) : m = n ∧ s = t := by
  have hends : ∀ {s}, Ends s → ∀ c ∈ s.head?, decide (c ≠ ' ' ∧ c ≠ '(' ∧ c ≠ ')') = false := by
    intro s hs c hc
    rcases hs c hc with rfl | rfl <;> rfl
  obtain ⟨hmn, hst⟩ := Text.span_append_inj _ (fun c hc => decide_eq_true (hm.2 c hc))
    (fun c hc => decide_eq_true (hn.2 c hc)) (hends hs) (hends ht) h
  exact ⟨String.toList_inj.1 hmn, hst⟩

/-- Forms with a blank before each, up to a parenthesis. -/
theorem spaced_append_inj {es es' : List TypeId} {s t : List Char}
    (hf : ∀ e ∈ es, ∀ e' ∈ es', Reads f e e')
    (h : (es.flatMap fun e => " ".toList ++ (f e).toList) ++ ')' :: s =
      (es'.flatMap fun e => " ".toList ++ (f e).toList) ++ ')' :: t) : es = es' ∧ s = t := by
  obtain ⟨rfl, hst⟩ := Text.flatMap_append_inj (F := Ends) (fun a ha b hb u v hu hv h =>
    hf a ha b hb u v hu hv (by simpa using h)) (fun _ _ => ends_blank) ends_close ends_close
    (by simp) (by simp) h
  exact ⟨rfl, (cons.inj hst).2⟩

/-- The forms of parameters, without a blank before the first. -/
theorem params_append_inj {ps qs : List TypeId} {s t : List Char}
    (hf : ∀ e ∈ ps, ∀ e' ∈ qs, Reads f e e') (hps : ∀ e ∈ ps, Starts (f e))
    (hqs : ∀ e ∈ qs, Starts (f e)) (h : (" ".intercalate (ps.map f)).toList ++ ')' :: s =
      (" ".intercalate (qs.map f)).toList ++ ')' :: t) : ps = qs ∧ s = t := by
  have hclose : ∀ {e}, Starts (f e) → ∀ u s : List Char, (f e).toList ++ u ≠ ')' :: s := by
    intro e ⟨c, cs, hfe, hc⟩ u s heq
    rw [hfe] at heq
    exact hc (cons.inj heq).1
  obtain ⟨rfl, hst⟩ := Text.intercalate_append_inj hf (fun _ _ => by exact ends_blank)
    ends_close ends_close (by simp) (by simp) (fun e he u => hclose (hqs e he) u s)
    (fun e he u => hclose (hps e he) u t) h
  exact ⟨rfl, (cons.inj hst).2⟩

/-- The name of a type or a variable is clean. -/
def Worded : TypeDef → Prop
  | list _ | fn _ _ | tuple _ => True
  | d => Clean d.name

theorem Worded.clean (hd : d.Worded) (h : d.isNamed = true) : Clean d.name := by
  cases d <;> first | exact hd | cases h

theorem worded_look (h : d.look = d'.look) : d.Worded ↔ d'.Worded := by
  cases d <;> cases d' <;> simp_all [look, Worded, name]

/-- The character that tells structural types apart. -/
def mark : TypeDef → Char
  | list _ => 'l'
  | fn _ _ => 'f'
  | tuple _ => 't'
  | _ => 'v'

/-- A composed form starts with a parenthesis and a mark. -/
theorem toList_spell (h : d.isNamed = false) : ∃ u, (d.spell f).toList = '(' :: d.mark :: u := by
  cases d with
  | list e => exact ⟨_, by simp [spell, mark]; rfl⟩
  | fn ps r => exact ⟨_, by simp [spell, mark]; rfl⟩
  | tuple es =>
    rw [spell, String.toList_append, String.toList_append, Text.toList_intercalate_cons]
    exact ⟨_, rfl⟩
  | var n => exact ⟨_, by simp [spell, mark]; rfl⟩
  | _ => cases h

theorem Worded.starts (hd : d.Worded) : Starts (d.spell f) := by
  cases h : d.isNamed with
  | false =>
    obtain ⟨u, hu⟩ := toList_spell (f := f) h
    exact ⟨'(', _, hu, by decide⟩
  | true =>
    obtain ⟨hne, hclean⟩ := hd.clean h
    rw [spell_of_isNamed h]
    cases hl : d.name.toList with
    | nil => exact absurd (String.toList_inj.1 hl) hne
    | cons c cs => exact ⟨c, cs, hl, (hclean c (by rw [hl]; exact mem_cons_self)).2.2⟩

/-- A name does not start like the form of a structural type. -/
theorem name_append_ne {s t : List Char} (hd : d.Worded) (h : d.isNamed = true)
    (h' : d'.isNamed = false) : (d.spell f).toList ++ s ≠ (d'.spell f).toList ++ t := by
  intro heq
  obtain ⟨hne, hclean⟩ := hd.clean h
  obtain ⟨u, hu⟩ := toList_spell (f := f) h'
  rw [spell_of_isNamed h, hu] at heq
  cases hl : d.name.toList with
  | nil => exact hne (String.toList_inj.1 hl)
  | cons c cs =>
    rw [hl] at heq hclean
    exact (hclean c mem_cons_self).2.1 (cons.inj heq).1

/-- The form of a type tells what the type is, up to the definition of a
name. -/
theorem spell_append_inj {s t : List Char} (hd : d.Worded) (hd' : d'.Worded)
    (hf : ∀ e ∈ d.parts, ∀ e' ∈ d'.parts, Reads f e e')
    (hstart : ∀ e ∈ d.parts, Starts (f e)) (hstart' : ∀ e ∈ d'.parts, Starts (f e))
    (hname : d.isNamed = true → d'.isNamed = true → d.name.toList ++ s = d'.name.toList ++ t →
      d.name = d'.name ∧ s = t)
    (h : (d.spell f).toList ++ s = (d'.spell f).toList ++ t) :
    d.isNamed = d'.isNamed ∧ (d.isNamed = false → d = d') ∧ d.name = d'.name ∧ s = t := by
  cases hn : d.isNamed with
  | true =>
    cases hn' : d'.isNamed with
    | false => exact absurd h (name_append_ne hd hn hn')
    | true =>
      rw [spell_of_isNamed hn, spell_of_isNamed hn'] at h
      obtain ⟨hname, hst⟩ := hname hn hn' h
      exact ⟨rfl, fun hno => absurd hno (by decide), hname, hst⟩
  | false =>
    cases hn' : d'.isNamed with
    | true => exact absurd h.symm (name_append_ne hd' hn' hn)
    | false =>
      have hmark : d.mark = d'.mark := by
        obtain ⟨u, hu⟩ := toList_spell (f := f) hn
        obtain ⟨u', hu'⟩ := toList_spell (f := f) hn'
        rw [hu, hu'] at h
        exact (cons.inj (cons.inj h).2).1
      suffices hsame : d = d' ∧ s = t by
        obtain ⟨rfl, hst⟩ := hsame
        exact ⟨rfl, fun _ => rfl, rfl, hst⟩
      cases d with
      | list e =>
        obtain ⟨e', rfl⟩ : ∃ e', d' = list e' := by
          cases d' <;> first | exact ⟨_, rfl⟩ | simp [mark] at hmark
        simp only [spell, String.toList_append, append_assoc] at h
        obtain ⟨rfl, hst⟩ := hf e mem_cons_self e' mem_cons_self _ _ ends_close ends_close
          (append_cancel_left h)
        exact ⟨rfl, (cons.inj hst).2⟩
      | fn ps r =>
        obtain ⟨qs, q, rfl⟩ : ∃ qs q, d' = fn qs q := by
          cases d' <;> first | exact ⟨_, _, rfl⟩ | simp [mark] at hmark
        simp only [spell, String.toList_append, append_assoc] at h
        obtain ⟨rfl, hrest⟩ := params_append_inj
          (fun e he e' he' => hf e (mem_cons_of_mem r he) e' (mem_cons_of_mem q he'))
          (fun e he => hstart e (mem_cons_of_mem r he))
          (fun e he => hstart' e (mem_cons_of_mem q he)) (append_cancel_left h)
        obtain ⟨rfl, hst⟩ := hf r mem_cons_self q mem_cons_self _ _ ends_close ends_close
          (cons.inj hrest).2
        exact ⟨rfl, (cons.inj hst).2⟩
      | tuple es =>
        obtain ⟨es', rfl⟩ : ∃ es', d' = tuple es' := by
          cases d' <;> first | exact ⟨_, rfl⟩ | simp [mark] at hmark
        simp only [spell, String.toList_append, Text.toList_intercalate_cons, flatMap_map,
          append_assoc] at h
        obtain ⟨rfl, rfl⟩ := spaced_append_inj hf
          (append_cancel_left (append_cancel_left h))
        exact ⟨rfl, rfl⟩
      | var n =>
        obtain ⟨n', rfl⟩ : ∃ n', d' = var n' := by
          cases d' <;> first | exact ⟨_, rfl⟩ | simp [mark, isNamed] at hmark hn'
        simp only [spell, String.toList_append, append_assoc] at h
        obtain ⟨rfl, hst⟩ := clean_append_inj hd hd' ends_close ends_close (append_cancel_left h)
        exact ⟨rfl, (cons.inj hst).2⟩
      | _ => cases hn

/-- The key of a structural type. -/
def form (f : TypeId → String) (d : TypeDef) : String := d.kind.text ++ ":" ++ d.spell f

/-- The form of a composed type tells the type. -/
theorem form_inj (hn : d.isNamed = false) (hn' : d'.isNamed = false) (hd : d.Worded)
    (hd' : d'.Worded) (hf : ∀ e ∈ d.parts, ∀ e' ∈ d'.parts, Reads f e e')
    (hstart : ∀ e ∈ d.parts, Starts (f e)) (hstart' : ∀ e ∈ d'.parts, Starts (f e))
    (h : d.form f = d'.form f) : d = d' := by
  -- the kind is known from its first letter
  have hmark : ∀ d : TypeDef, d.isNamed = false → ∃ u, d.kind.text.toList = d.mark :: u := by
    intro d hd
    cases d <;> first | exact ⟨_, String.toList_ofList⟩ | simp [isNamed] at hd
  have hkind : d.kind = d'.kind := by
    obtain ⟨u, hu⟩ := hmark d hn
    obtain ⟨u', hu'⟩ := hmark d' hn'
    have hl := congrArg String.toList h
    simp only [form, String.toList_append, hu, hu'] at hl
    have hfirst := (cons.inj hl).1
    cases d <;> cases d' <;> simp_all [mark, kind, isNamed]
  have hl := congrArg String.toList h
  simp only [form, hkind, String.toList_append, append_assoc, append_cancel_left_eq] at hl
  have hspell : (d.spell f).toList ++ [] = (d'.spell f).toList ++ [] := by
    rw [append_nil, append_nil, hl]
  exact (spell_append_inj hd hd' hf hstart hstart' (fun hnamed => by rw [hn] at hnamed; cases hnamed)
    hspell).2.1 hn

end TypeDef

namespace Pool

open TypeDef

variable {p q r : Pool} {i j : TypeId} {d d' : TypeDef} {n : String}

-- ======== forms in a pool

theorem toNat_lt (h : p.get? i = some d) : i.toNat < p.size := by
  unfold get? at h
  split at h
  · cases h
  · exact (Array.getElem?_eq_some_iff.1 h).1

/-- A pool with one type more. -/
theorem get?_push {i : Int} {names forms : List (String × TypeId)} :
    (Pool.mk (p.types.push d) names forms).get? i = if i = p.size then some d else p.get? i := by
  unfold size
  by_cases hi : i < 0
  · rw [get?, get?, if_pos hi, if_pos hi, if_neg (by omega)]
  · rw [get?, get?, if_neg hi, if_neg hi, Array.getElem?_push]
    by_cases heq : i = p.types.size
    · rw [if_pos heq, if_pos (by omega)]
    · rw [if_neg heq, if_neg (by omega)]

/-- A name is spelled by the names of the parts. -/
theorem nameWithin_succ {depth : Nat} (h : p.get? i = some d) :
    p.nameWithin (depth + 1) i = d.spell (p.nameWithin depth) := by
  rw [nameWithin, h]
  cases d <;> rfl

/-- A pool later on: its types are written as they were, and those that were
defined, the names and the forms are still what they were. -/
structure Grows (p q : Pool) : Prop where
  types : ∀ i d, p.get? i = some d →
    ∃ d', q.get? i = some d' ∧ d'.look = d.look ∧ (d.isDefined = true → d' = d)
  names : ∀ n i, p.names.lookup n = some i → q.names.lookup n = some i
  forms : ∀ s i, p.forms.lookup s = some i → q.forms.lookup s = some i

/-- No type has changed. -/
def Keeps (p q : Pool) : Prop := ∀ i d, p.get? i = some d → q.get? i = some d

theorem Grows.refl : Grows p p where
  types _ d h := ⟨d, h, rfl, fun _ => rfl⟩
  names _ _ h := h
  forms _ _ h := h

theorem Grows.trans (h : Grows p q) (h' : Grows q r) : Grows p r where
  types i d hi := by
    obtain ⟨d', hi', hlook, hdef⟩ := h.types i d hi
    obtain ⟨d'', hi'', hlook', hdef'⟩ := h'.types i d' hi'
    refine ⟨d'', hi'', hlook'.trans hlook, fun hd => ?_⟩
    obtain rfl := hdef hd
    exact hdef' hd
  names n i hn := h'.names n i (h.names n i hn)
  forms s i hs := h'.forms s i (h.forms s i hs)

/-- What is defined stays. -/
theorem Grows.get? (h : Grows p q) (hi : p.get? i = some d) (hd : d.isDefined = true) :
    q.get? i = some d := by
  obtain ⟨d', hi', -, hdef⟩ := h.types i d hi
  rw [hi', hdef hd]

theorem Grows.isSome (h : Grows p q) (hi : (p.get? i).isSome) : (q.get? i).isSome := by
  obtain ⟨d, hd⟩ := Option.isSome_iff_exists.1 hi
  obtain ⟨d', hi', -⟩ := h.types i d hd
  rw [hi']
  rfl

/-- Structural types have earlier parts, named types are listed by their names
and structural ones by their forms, and nothing else is. -/
structure Canonical (p : Pool) : Prop where
  parts : ∀ i d, p.get? i = some d → ∀ e ∈ d.parts, e.toNat < i.toNat ∧ (p.get? e).isSome
  worded : ∀ i d, p.get? i = some d → d.Worded
  named : ∀ i d, p.get? i = some d → d.isNamed = true → p.names.lookup d.name = some i
  listed : ∀ i d, p.get? i = some d → d.isNamed = false → p.forms.lookup (d.form p.name) = some i
  found : ∀ s i, p.forms.lookup s = some i →
    ∃ d, p.get? i = some d ∧ d.isNamed = false ∧ s = d.form p.name

/-- A form stays what it is, and needs no more depth than the number of its
type. -/
theorem Canonical.nameWithin_eq (hp : p.Canonical) (hg : Grows p q) :
    ∀ (k m : Nat) (i : TypeId), (p.get? i).isSome → i.toNat < k → i.toNat < m →
      q.nameWithin m i = p.nameWithin k i := by
  intro k
  induction k with
  | zero => exact fun m i _ hk => absurd hk (Nat.not_lt_zero _)
  | succ k ih =>
    intro m i hi hk hm
    obtain ⟨d, hd⟩ := Option.isSome_iff_exists.1 hi
    obtain ⟨d', hd', hlook, -⟩ := hg.types i d hd
    obtain ⟨m, rfl⟩ : ∃ m', m = m' + 1 := ⟨m - 1, by omega⟩
    rw [nameWithin_succ hd, nameWithin_succ hd', ← spell_look, hlook, spell_look]
    refine spell_congr fun e he => ?_
    obtain ⟨hlt, hknown⟩ := hp.parts i d hd e he
    exact ih m e hknown (by omega) (by omega)

/-- Names stay when a pool grows. -/
theorem Canonical.name_of_grows (hp : p.Canonical) (hg : Grows p q) (hi : (p.get? i).isSome) :
    q.name i = p.name i := by
  obtain ⟨d, hd⟩ := Option.isSome_iff_exists.1 hi
  obtain ⟨d', hd', -⟩ := hg.types i d hd
  have hlt := toNat_lt hd
  have hlt' := toNat_lt hd'
  exact hp.nameWithin_eq hg _ _ i hi (by omega) (by omega)

/-- So do forms. -/
theorem Canonical.form_of_grows (hp : p.Canonical) (hg : Grows p q)
    (hparts : ∀ e ∈ d.parts, (p.get? e).isSome) : d.form q.name = d.form p.name := by
  rw [form, form, spell_congr fun e he => hp.name_of_grows hg (hparts e he)]

/-- In a canonical pool a name is spelled by names. -/
theorem Canonical.name_eq (hp : p.Canonical) (hi : p.get? i = some d) :
    p.name i = d.spell p.name := by
  rw [name, nameWithin_succ hi]
  refine spell_congr fun e he => ?_
  obtain ⟨hlt, hknown⟩ := hp.parts i d hi e he
  have := toNat_lt hi
  exact hp.nameWithin_eq .refl _ _ e hknown (by omega) (by omega)

theorem Canonical.starts (hp : p.Canonical) (hi : (p.get? i).isSome) : Starts (p.name i) := by
  obtain ⟨d, hd⟩ := Option.isSome_iff_exists.1 hi
  rw [hp.name_eq hd]
  exact (hp.worded i d hd).starts

/-- A type is known from its name and what follows it, if that shows where a
name ends that is not composed. -/
theorem Canonical.name_append_inj (hp : p.Canonical) : ∀ (k : Nat) (i j : TypeId), i.toNat < k →
    (p.get? i).isSome → (p.get? j).isSome → ∀ s t : List Char,
    (∀ d d', p.get? i = some d → p.get? j = some d' → d.isNamed = true → d'.isNamed = true →
      d.name.toList ++ s = d'.name.toList ++ t → d.name = d'.name ∧ s = t) →
    (p.name i).toList ++ s = (p.name j).toList ++ t → i = j ∧ s = t := by
  intro k
  induction k with
  | zero => exact fun i j hk => absurd hk (Nat.not_lt_zero _)
  | succ k ih =>
    intro i j hk hi hj s t hnames h
    obtain ⟨d, hd⟩ := Option.isSome_iff_exists.1 hi
    obtain ⟨d', hd'⟩ := Option.isSome_iff_exists.1 hj
    have hparts := hp.parts i d hd
    have hparts' := hp.parts j d' hd'
    rw [hp.name_eq hd, hp.name_eq hd'] at h
    obtain ⟨hn, hsame, hname, rfl⟩ := spell_append_inj (hp.worded i d hd) (hp.worded j d' hd')
      (fun e he e' he' u v hu hv => ih e e' (by have := (hparts e he).1; omega) (hparts e he).2
        (hparts' e' he').2 u v fun d d' hd hd' hn hn' => clean_append_inj
          ((hp.worded e d hd).clean hn) ((hp.worded e' d' hd').clean hn') hu hv)
      (fun e he => hp.starts (hparts e he).2) (fun e he => hp.starts (hparts' e he).2)
      (hnames d d' hd hd') h
    refine ⟨?_, rfl⟩
    cases hnd : d.isNamed with
    | true =>
      have hi := hp.named i d hd hnd
      rw [hname, hp.named j d' hd' (hn.symm.trans hnd)] at hi
      exact (Option.some.inj hi).symm
    | false =>
      have hi := hp.listed i d hd hnd
      rw [hsame hnd, hp.listed j d' hd' (hn.symm.trans hnd)] at hi
      exact (Option.some.inj hi).symm

/-- The form of a type tells its number, whatever ends a form stands behind it. -/
theorem Canonical.reads (hp : p.Canonical) (hi : (p.get? i).isSome) (hj : (p.get? j).isSome) :
    Reads p.name i j :=
  fun s t hs ht => hp.name_append_inj _ i j (Nat.lt_succ_self _) hi hj s t fun d d' hd hd' hn hn' =>
    clean_append_inj ((hp.worded i d hd).clean hn) ((hp.worded j d' hd').clean hn') hs ht

/-- No two types are written alike. -/
theorem Canonical.name_inj (hp : p.Canonical) (hi : (p.get? i).isSome) (hj : (p.get? j).isSome)
    (h : p.name i = p.name j) : i = j := by
  have hends : Ends [] := by simp [Ends]
  exact (hp.reads hi hj [] [] hends hends (by simp only [h])).1

-- ======== steps

/-- A pool stays canonical if what is new in it is. -/
theorem Canonical.grow (hp : p.Canonical) (hg : Grows p q)
    (hnew : ∀ i d, q.get? i = some d → (∃ d₀, p.get? i = some d₀ ∧ d.look = d₀.look) ∨
      d.Worded ∧ (∀ e ∈ d.parts, e.toNat < i.toNat ∧ (p.get? e).isSome) ∧
        (d.isNamed = true → q.names.lookup d.name = some i) ∧
        (d.isNamed = false → q.forms.lookup (d.form p.name) = some i))
    (hfound : ∀ s i, q.forms.lookup s = some i → p.forms.lookup s = some i ∨
      ∃ d, q.get? i = some d ∧ d.isNamed = false ∧ s = d.form p.name ∧
        ∀ e ∈ d.parts, (p.get? e).isSome) : q.Canonical := by
  have hform : ∀ i d, q.get? i = some d → (∀ e ∈ d.parts, (p.get? e).isSome) := by
    intro i d hd e he
    rcases hnew i d hd with ⟨d₀, hd₀, hlook⟩ | ⟨-, hparts, -⟩
    · rw [← parts_look, hlook, parts_look] at he
      exact (hp.parts i d₀ hd₀ e he).2
    · exact (hparts e he).2
  refine ⟨fun i d hd e he => ⟨?_, hg.isSome (hform i d hd e he)⟩, fun i d hd => ?_,
    fun i d hd hn => ?_, fun i d hd hn => ?_, fun s i hs => ?_⟩
  · rcases hnew i d hd with ⟨d₀, hd₀, hlook⟩ | ⟨-, hparts, -⟩
    · rw [← parts_look, hlook, parts_look] at he
      exact (hp.parts i d₀ hd₀ e he).1
    · exact (hparts e he).1
  · rcases hnew i d hd with ⟨d₀, hd₀, hlook⟩ | ⟨hw, -⟩
    · exact (worded_look hlook).2 (hp.worded i d₀ hd₀)
    · exact hw
  · rcases hnew i d hd with ⟨d₀, hd₀, hlook⟩ | ⟨-, -, hnamed, -⟩
    · rw [← isNamed_look, hlook, isNamed_look] at hn
      rw [← name_look, hlook, name_look]
      exact hg.names _ i (hp.named i d₀ hd₀ hn)
    · exact hnamed hn
  · rw [hp.form_of_grows hg (hform i d hd)]
    rcases hnew i d hd with ⟨d₀, hd₀, hlook⟩ | ⟨-, -, -, hlisted⟩
    · have hn₀ : d₀.isNamed = false := by rw [← isNamed_look, ← hlook, isNamed_look, hn]
      rw [look_of_structural hn, look_of_structural hn₀] at hlook
      rw [hlook]
      exact hg.forms _ i (hp.listed i d₀ hd₀ hn₀)
    · exact hlisted hn
  · rcases hfound s i hs with hs | ⟨d, hd, hn, rfl, hparts⟩
    · obtain ⟨d, hd, hn, rfl⟩ := hp.found s i hs
      refine ⟨d, hg.get? hd (isDefined_of_structural hn), hn, ?_⟩
      rw [hp.form_of_grows hg fun e he => (hp.parts i d hd e he).2]
    · exact ⟨d, hd, hn, (hp.form_of_grows hg hparts).symm⟩

/-- A new type with what it is listed under. -/
theorem Canonical.push (hp : p.Canonical) (hw : d.Worded)
    (hparts : ∀ e ∈ d.parts, (p.get? e).isSome) {names forms : List (String × TypeId)}
    (hg : Grows p ⟨p.types.push d, names, forms⟩)
    (hnamed : d.isNamed = true → names.lookup d.name = some (p.size : Int))
    (hlisted : d.isNamed = false → forms.lookup (d.form p.name) = some (p.size : Int))
    (hfound : ∀ s i, forms.lookup s = some i → p.forms.lookup s = some i ∨
      i = p.size ∧ d.isNamed = false ∧ s = d.form p.name) :
    (Pool.mk (p.types.push d) names forms).Canonical := by
  refine hp.grow hg (fun i d' hd' => ?_) fun s i hs => ?_
  · rw [get?_push] at hd'
    split at hd'
    · next hi =>
      obtain rfl := Option.some.inj hd'
      subst hi
      refine .inr ⟨hw, fun e he => ⟨?_, hparts e he⟩, hnamed, hlisted⟩
      obtain ⟨d', hd'⟩ := Option.isSome_iff_exists.1 (hparts e he)
      exact toNat_lt hd'
    · exact .inl ⟨d', hd', rfl⟩
  · rcases hfound s i hs with hs | ⟨rfl, hn, rfl⟩
    · exact .inl hs
    · refine .inr ⟨d, ?_, hn, rfl, hparts⟩
      rw [get?_push]
      exact if_pos rfl

theorem get?_push_of_some {names forms : List (String × TypeId)} (h : p.get? i = some d') :
    (Pool.mk (p.types.push d) names forms).get? i = some d' := by
  rw [get?_push, if_neg, h]
  rintro rfl
  exact Nat.lt_irrefl _ (toNat_lt h)

/-- A pool grows by a type. -/
theorem Grows.push {names forms : List (String × TypeId)}
    (hnames : ∀ n i, p.names.lookup n = some i → names.lookup n = some i)
    (hforms : ∀ s i, p.forms.lookup s = some i → forms.lookup s = some i) :
    Grows p ⟨p.types.push d, names, forms⟩ where
  types _ d' hd' := ⟨d', get?_push_of_some hd', rfl, fun _ => rfl⟩
  names := hnames
  forms := hforms

theorem lookup_cons_of_none {xs : List (String × TypeId)} {k s : String} {a : TypeId}
    (hk : xs.lookup k = none) (h : xs.lookup s = some i) : ((k, a) :: xs).lookup s = some i := by
  rw [lookup_cons]
  split
  · next heq =>
    rw [beq_iff_eq.1 heq, hk] at h
    cases h
  · exact h

/-- A form that is written before its type is listed is that of the type. -/
theorem Canonical.key_eq (hp : p.Canonical) (hparts : ∀ e ∈ d.parts, (p.get? e).isSome) :
    d.kind.text ++ ":" ++ (p.add d).name p.size = d.form p.name := by
  have hadd : Grows p (p.add d) := .push (fun _ _ h => h) fun _ _ h => h
  have hget : (p.add d).get? p.size = some d := by
    rw [add, get?_push]
    exact if_pos rfl
  rw [form, name, nameWithin_succ hget]
  congr 1
  refine spell_congr fun e he => ?_
  obtain ⟨d', hd'⟩ := Option.isSome_iff_exists.1 (hparts e he)
  have hlt := toNat_lt hd'
  refine hp.nameWithin_eq hadd _ _ e (hparts e he) (by omega) ?_
  exact hlt.trans_le (by simp [size, add])

/-- A composed type that is there is found. -/
theorem intern_eq (hp : p.Canonical) (hn : d.isNamed = false) (hi : p.get? i = some d) :
    p.intern d = (i, p) := by
  unfold intern
  dsimp only
  rw [hp.key_eq fun e he => (hp.parts i d hi e he).2, hp.listed i d hi hn]

/-- A structural type is interned once. -/
theorem intern_canonical (hp : p.Canonical) (hn : d.isNamed = false) (hw : d.Worded)
    (hparts : ∀ e ∈ d.parts, (p.get? e).isSome) :
    (p.intern d).2.Canonical ∧ Grows p (p.intern d).2 ∧ Keeps p (p.intern d).2 ∧
      (p.intern d).2.get? (p.intern d).1 = some d := by
  unfold intern
  dsimp only
  rw [hp.key_eq hparts]
  cases hl : p.forms.lookup (d.form p.name) with
  | some i =>
    -- the form is that of the type that was found
    obtain ⟨d', hd', hn', hform⟩ := hp.found _ i hl
    have hparts' := hp.parts i d' hd'
    obtain rfl := form_inj hn hn' hw (hp.worded i d' hd')
      (fun e he e' he' => hp.reads (hparts e he) (hparts' e' he').2)
      (fun e he => hp.starts (hparts e he)) (fun e he => hp.starts (hparts' e he).2) hform
    exact ⟨hp, .refl, fun _ _ h => h, hd'⟩
  | none =>
    have hg : Grows p ⟨p.types.push d, p.names, (d.form p.name, (p.size : Int)) :: p.forms⟩ :=
      .push (fun _ _ h => h) fun s i hs => lookup_cons_of_none hl hs
    refine ⟨hp.push hw hparts hg (fun h => ?_) (fun _ => lookup_cons_self) fun s i hs => ?_, hg,
      fun _ _ => get?_push_of_some, ?_⟩
    · rw [hn] at h
      cases h
    · rw [lookup_cons] at hs
      split at hs
      · next heq => exact .inr ⟨(Option.some.inj hs).symm, hn, beq_iff_eq.1 heq⟩
      · exact .inl hs
    · show (Pool.mk (p.types.push d) p.names _).get? p.size = some d
      rw [get?_push]
      exact if_pos rfl

/-- Declaring a name keeps a pool canonical. -/
theorem declare_canonical (hp : p.Canonical) (hn : Clean n) {kind : Kind}
    (h : p.declare n kind = .ok (i, q)) :
    q.Canonical ∧ Grows p q ∧ Keeps p q := by
  unfold declare at h
  cases hd : declaration? n kind with
  | none =>
    rw [hd] at h
    cases h
  | some d =>
    have hspec : d.isNamed = true ∧ d.name = n ∧ d.parts = [] ∧ d.Worded := by
      cases kind <;> cases hd <;> exact ⟨rfl, rfl, rfl, hn⟩
    obtain ⟨hnamed, rfl, hparts, hw⟩ := hspec
    cases hl : p.byName? d.name with
    | some _ =>
      rw [hd, hl] at h
      cases h
    | none =>
      rw [hd, hl] at h
      obtain ⟨rfl, rfl⟩ := Prod.mk.inj (Except.ok.inj h)
      have hg : Grows p ⟨p.types.push d, (d.name, (p.size : Int)) :: p.names, p.forms⟩ :=
        .push (fun m j hm => lookup_cons_of_none hl hm) fun _ _ h => h
      refine ⟨hp.push hw (fun e he => ?_) hg (fun _ => lookup_cons_self) (fun h => ?_)
        fun s i hs => .inl hs, hg, fun _ _ => get?_push_of_some⟩
      · rw [hparts] at he
        cases he
      · rw [hnamed] at h
        cases h

/-- A type is defined. -/
theorem get?_replace (h : p.get? i = some d') {j : Int} :
    (p.replace i d).get? j = if j = i then some d else p.get? j := by
  unfold get? at h
  split at h
  · cases h
  · next hi =>
    have hlt := (Array.getElem?_eq_some_iff.1 h).1
    unfold get? replace
    dsimp only
    by_cases hj : j < 0
    · rw [if_pos hj, if_pos hj, if_neg]
      rintro rfl
      exact hi hj
    · rw [if_neg hj, if_neg hj, Array.getElem?_setIfInBounds]
      by_cases heq : j = i
      · rw [heq, if_pos rfl, if_pos rfl, if_pos hlt]
      · rw [if_neg heq, if_neg]
        exact fun hne => heq (by
          rw [← Int.toNat_of_nonneg (not_lt.1 hj), ← hne, Int.toNat_of_nonneg (not_lt.1 hi)])

/-- The definition of a named type. -/
theorem replace_canonical (hp : p.Canonical) (hi : p.get? i = some d) (hopen : d.isDefined = false)
    (hlook : d'.look = d.look) : (p.replace i d').Canonical ∧ Grows p (p.replace i d') := by
  have hg : Grows p (p.replace i d') := by
    refine ⟨fun j dj hj => ?_, fun _ _ h => h, fun _ _ h => h⟩
    rw [get?_replace hi]
    split
    · next heq =>
      rw [heq, hi] at hj
      obtain rfl := Option.some.inj hj
      refine ⟨d', rfl, hlook, fun h => ?_⟩
      rw [hopen] at h
      cases h
    · exact ⟨dj, hj, rfl, fun _ => rfl⟩
  refine ⟨hp.grow hg (fun j dj hj => .inl ?_) fun s j hs => .inl hs, hg⟩
  rw [get?_replace hi] at hj
  split at hj
  · next heq =>
    obtain rfl := Option.some.inj hj
    exact ⟨d, by rw [heq, hi], hlook⟩
  · exact ⟨dj, hj, rfl⟩

/-- A type that waits for its definition. -/
theorem awaiting_ok {kind : Kind} (h : p.awaiting i kind = .ok n) :
    ∃ d, p.get? i = some d ∧ d.kind = kind ∧ d.isDefined = false ∧ d.name = n := by
  unfold awaiting at h
  obtain ⟨d, hd, h⟩ := bind_ok h
  unfold find at hd
  split at hd
  · next hget =>
    obtain rfl := Except.ok.inj hd
    split at h
    · cases h
    · next hkind =>
      split at h
      · cases h
      · next hdef =>
        exact ⟨_, hget, not_not.1 hkind, eq_false_of_ne_true hdef, Except.ok.inj h⟩
  · cases hd

theorem awaiting_eq (h : p.get? i = some d) (hopen : d.isDefined = false) :
    p.awaiting i d.kind = .ok d.name := by
  rw [awaiting, find, h]
  simp [hopen, bind, Except.bind]

-- ======== histories

/-- What can be asked of a pool. -/
inductive Call where
  | list (elem : TypeId)
  | fn (params : List TypeId) (result : TypeId)
  | tuple (elems : List TypeId)
  | var (name : String)
  | declare (name : String) (kind : Kind)
  | defineRecord (id : TypeId) (fields : List Field)
  | defineEnum (id : TypeId) (variants : List Variant)
  | resolve (id target : TypeId)
  deriving DecidableEq

namespace Call

variable {c c' : Call}

/-- The structural type that is asked for. -/
def type? : Call → Option TypeDef
  | list e => some (.list e)
  | fn ps r => some (.fn ps r)
  | tuple es => some (.tuple es)
  | var n => some (.var n)
  | _ => none

/-- The number that a structural call returns. -/
def number? (p : Pool) : Call → Option TypeId
  | list e => some (p.list e).1
  | fn ps r => some (p.fn ps r).1
  | tuple es => some (p.tuple es).1
  | var n => some (p.var n).1
  | _ => none

/-- The pool after a call, which is the same if the call fails. -/
def after (p : Pool) : Call → Pool
  | list e => (p.list e).2
  | fn ps r => (p.fn ps r).2
  | tuple es => (p.tuple es).2
  | var n => (p.var n).2
  | declare n k => ((p.declare n k).map (·.2)).toOption.getD p
  | defineRecord id fs => (p.defineRecord id fs).toOption.getD p
  | defineEnum id vs => (p.defineEnum id vs).toOption.getD p
  | resolve id t => (p.resolve id t).toOption.getD p

/-- The type that a call defines. -/
def defines? : Call → Option TypeId
  | defineRecord id _ | defineEnum id _ | resolve id _ => some id
  | _ => none

/-- The types that a call mentions are there and its names are clean. -/
def Fits (p : Pool) : Call → Prop
  | list e => (p.get? e).isSome
  | fn ps r => ∀ e ∈ r :: ps, (p.get? e).isSome
  | tuple es => ∀ e ∈ es, (p.get? e).isSome
  | var n | declare n _ => Clean n
  | defineRecord id _ | defineEnum id _ => (p.get? id).isSome
  | resolve id t => (p.get? id).isSome ∧ (p.get? t).isSome

/-- What a call defines, if it is not void: the type, its kind and what becomes
of its name. -/
def opening? : Call → Option (TypeId × Kind × (String → TypeDef))
  | defineRecord id fs => some (id, .record, fun n => .record n (some fs))
  | defineEnum id (v :: vs) => some (id, .enum, fun n => .enum n (some (v :: vs)))
  | resolve id t => some (id, .synonym, fun n => .synonym n (some t))
  | _ => none

/-- A call for a composed type. -/
theorem after_of_type? (h : c.type? = some d) :
    c.after p = (p.intern d).2 ∧ c.number? p = some (p.intern d).1 := by
  cases c <;> cases h <;> exact ⟨rfl, rfl⟩

/-- What it names is there. -/
theorem Fits.type? (hc : c.Fits p) (h : c.type? = some d) :
    d.isNamed = false ∧ d.Worded ∧ ∀ e ∈ d.parts, (p.get? e).isSome := by
  cases c with
  | list e =>
    cases h
    exact ⟨rfl, trivial, fun e' he' => by rwa [mem_singleton.1 he']⟩
  | var n =>
    cases h
    exact ⟨rfl, hc, fun e he => absurd he not_mem_nil⟩
  | _ => cases h <;> exact ⟨rfl, trivial, hc⟩

theorem Fits.defines? (hc : c.Fits p) (h : c.defines? = some i) : (p.get? i).isSome := by
  cases c <;> cases h <;> first | exact hc | exact hc.1

theorem eq_of_type? (h : c.type? = some d) (h' : c'.type? = some d) : c = c' := by
  cases c <;> cases h <;> cases c' <;> cases h' <;> rfl

variable {k : Kind} {mk : String → TypeDef}

/-- A call that defines a declared type. -/
theorem after_of_opening? (hc : c.Fits p) (h : c.opening? = some (i, k, mk)) :
    c.after p = ((p.awaiting i k).map fun n => p.replace i (mk n)).toOption.getD p := by
  cases c with
  | defineRecord id fs =>
    cases h
    rw [after, Pool.defineRecord]
    cases p.awaiting i .record <;> rfl
  | defineEnum id vs =>
    cases vs <;> cases h
    rw [after, Pool.defineEnum]
    cases p.awaiting i .enum <;> rfl
  | resolve id t =>
    cases h
    obtain ⟨d, hd⟩ := Option.isSome_iff_exists.1 hc.2
    rw [after, Pool.resolve, hd]
    cases p.awaiting i .synonym <;> rfl
  | _ => cases h

theorem mk_of_opening? (h : c.opening? = some (i, k, mk)) (hk : d.kind = k) :
    (mk d.name).isDefined = true ∧ (mk d.name).look = d.look := by
  have hlook := look_of_kind hk
  cases c with
  | defineEnum id vs => cases vs with
    | nil => cases h
    | cons v vs => cases h; exact ⟨rfl, hlook.symm⟩
  | _ => cases h <;> exact ⟨rfl, hlook.symm⟩

/-- A call either asks for a structural type, declares a name, defines a type
or does nothing. -/
theorem cases_of (c : Call) : (∃ d, c.type? = some d) ∨ (∃ n k, c = declare n k) ∨
    (∃ id k mk, c.opening? = some (id, k, mk) ∧ c.defines? = some id) ∨ ∀ p, c.after p = p := by
  cases c with
  | declare n k => exact .inr (.inl ⟨n, k, rfl⟩)
  | defineRecord id fs => exact .inr (.inr (.inl ⟨_, _, _, rfl, rfl⟩))
  | defineEnum id vs =>
    cases vs with
    | nil =>
      refine .inr (.inr (.inr fun p => ?_))
      rw [after, Pool.defineEnum]
      cases p.awaiting id .enum <;> rfl
    | cons v vs => exact .inr (.inr (.inl ⟨_, _, _, rfl, rfl⟩))
  | resolve id t => exact .inr (.inr (.inl ⟨_, _, _, rfl, rfl⟩))
  | _ => exact .inl ⟨_, rfl⟩

theorem declare_of_listed (h : p.names.lookup n = some i) : (declare n k).after p = p := by
  rw [after, Pool.declare]
  cases declaration? n k with
  | none => rfl
  | some d =>
    dsimp only
    rw [byName?, h]
    rfl

theorem declare_listed (h : declaration? n k = some d) :
    ∃ i, ((declare n k).after p).names.lookup n = some i := by
  cases hl : p.names.lookup n with
  | some i => exact ⟨i, by rw [declare_of_listed hl, hl]⟩
  | none =>
    rw [after, Pool.declare, h, byName?, hl]
    exact ⟨_, lookup_cons_self⟩

/-- A call that fits still does when the pool has grown. -/
theorem Fits.grows (hc : c.Fits p) (hg : Grows p q) : c.Fits q := by
  cases c with
  | list e => exact hg.isSome hc
  | fn ps r => exact fun e he => hg.isSome (hc e he)
  | tuple es => exact fun e he => hg.isSome (hc e he)
  | resolve id t => exact ⟨hg.isSome hc.1, hg.isSome hc.2⟩
  | defineRecord id fs => exact hg.isSome hc
  | defineEnum id vs => exact hg.isSome hc
  | _ => exact hc

/-- What a call does to a pool. -/
theorem after_canonical (hp : p.Canonical) (hc : c.Fits p) :
    (c.after p).Canonical ∧ Grows p (c.after p) ∧
      ∀ j d, p.get? j = some d → c.defines? ≠ some j → (c.after p).get? j = some d := by
  obtain ⟨d, hd⟩ | ⟨n, k, rfl⟩ | ⟨i, k, mk, ho, hdef⟩ | h := c.cases_of
  · obtain ⟨hn, hw, hparts⟩ := hc.type? hd
    rw [(after_of_type? hd).1]
    obtain ⟨hcan, hg, hk, -⟩ := intern_canonical hp hn hw hparts
    exact ⟨hcan, hg, fun j d hj _ => hk j d hj⟩
  · rw [after]
    cases h : p.declare n k with
    | error e => exact ⟨hp, .refl, fun j d hj _ => hj⟩
    | ok r =>
      obtain ⟨hcan, hg, hk⟩ := declare_canonical hp hc h
      exact ⟨hcan, hg, fun j d hj _ => hk j d hj⟩
  · rw [after_of_opening? hc ho]
    cases h : p.awaiting i k with
    | error e => exact ⟨hp, .refl, fun j d hj _ => hj⟩
    | ok n =>
      obtain ⟨d, hi, hkind, hopen, rfl⟩ := awaiting_ok h
      obtain ⟨hcan, hg⟩ := replace_canonical hp hi hopen (mk_of_opening? ho hkind).2
      refine ⟨hcan, hg, fun j dj hj hne => ?_⟩
      show (p.replace i (mk d.name)).get? j = some dj
      rw [get?_replace hi, if_neg, hj]
      rintro rfl
      exact hne hdef
  · rw [h]
    exact ⟨hp, .refl, fun j d hj _ => hj⟩

end Call

/-- A pool after calls. -/
def Later : Pool → Pool → Prop :=
  Relation.ReflTransGen fun p q => ∃ c : Call, c.Fits p ∧ c.after p = q

/-- Calls that fit keep a pool canonical. By induction on the calls. -/
theorem Later.canonical (hp : p.Canonical) (h : Later p q) : q.Canonical ∧ Grows p q := by
  induction h with
  | refl => exact ⟨hp, .refl⟩
  | tail _ hc ih =>
    obtain ⟨c, hc, rfl⟩ := hc
    obtain ⟨hcan, hg, -⟩ := c.after_canonical ih.1 hc
    exact ⟨hcan, ih.2.trans hg⟩

/-- The pool that all start from is canonical. -/
theorem initial_canonical : initial.Canonical := by
  have hget : ∀ i d, initial.get? i = some d → ∃ b, d = .builtin b ∧
      initial.names.lookup d.name = some i := by
    intro i d h
    unfold get? at h
    split at h
    · cases h
    · next hi =>
      have hlt : i.toNat < 7 := (Array.getElem?_eq_some_iff.1 h).1
      obtain ⟨k, rfl⟩ : ∃ k : Nat, i = k := ⟨i.toNat, (Int.toNat_of_nonneg (not_lt.1 hi)).symm⟩
      rw [Int.toNat_natCast] at h hlt
      interval_cases k <;> cases h <;> exact ⟨_, rfl, by decide +kernel⟩
  have hclean : ∀ b : Builtin, Clean b.kind.text := by
    intro b
    cases b <;> simp [Clean, Builtin.kind, Kind.text]
  refine ⟨fun i d h e he => ?_, fun i d h => ?_, fun i d h _ => ?_, fun i d h hn => ?_,
    fun s i h => (by cases h)⟩ <;> obtain ⟨b, rfl, hl⟩ := hget i d h
  · cases he
  · exact hclean b
  · exact hl
  · cases hn

/-- A call made again later changes nothing. -/
theorem after_again (hp : p.Canonical) {c : Call} (hc : c.Fits p) (h : Later (c.after p) q) :
    c.after q = q := by
  obtain ⟨hcan, hg, -⟩ := c.after_canonical hp hc
  obtain ⟨hq, hg'⟩ := h.canonical hcan
  obtain ⟨d, hd⟩ | ⟨n, k, rfl⟩ | ⟨i, k, mk, ho, hdef⟩ | hvoid := c.cases_of
  · obtain ⟨hn, hw, hparts⟩ := hc.type? hd
    obtain ⟨-, -, -, hget⟩ := intern_canonical hp hn hw hparts
    rw [(Call.after_of_type? hd).1] at hg'
    rw [(Call.after_of_type? hd).1,
      intern_eq hq hn (hg'.get? hget (isDefined_of_structural hn))]
  · cases hd : declaration? n k with
    | none => rw [Call.after, declare, hd]; rfl
    | some d =>
      obtain ⟨i, hi⟩ := Call.declare_listed (p := p) hd
      exact Call.declare_of_listed (hg'.names n i hi)
  · have hfits := hc.grows (hg.trans hg')
    rw [Call.after_of_opening? hfits ho]
    cases hopen : q.awaiting i k with
    | error e => rfl
    | ok n =>
      -- it was not defined then either, so it was defined by the call
      obtain ⟨d', hd', rfl, hopen', -⟩ := awaiting_ok hopen
      obtain ⟨d, hd⟩ := Option.isSome_iff_exists.1 (hc.defines? hdef)
      obtain ⟨d'', hd'', hlook, hsame⟩ := (hg.trans hg').types i d hd
      obtain rfl := Option.some.inj (hd'.symm.trans hd'')
      have hundef : d.isDefined = false := by
        by_contra hdone
        rw [hsame (eq_true_of_ne_false hdone)] at hopen'
        exact hdone hopen'
      have hkind : d.kind = d'.kind := by rw [← kind_look, ← hlook, kind_look]
      have hdone := (Call.mk_of_opening? ho hkind).1
      rw [Call.after_of_opening? hc ho, ← hkind, awaiting_eq hd hundef] at hg'
      have hget := hg'.get? ((get?_replace hd).trans (if_pos rfl)) hdone
      rw [hd'] at hget
      rw [Option.some.inj hget, hdone] at hopen'
      cases hopen'
  · exact hvoid q

/-- Structural calls give the same number exactly if they are the same. -/
theorem number?_eq_iff (hp : p.Canonical) {c c' : Call} (hc : c.Fits p)
    (h : Later (c.after p) q) (hc' : c'.Fits q) (hd : c.type? = some d)
    (hd' : c'.type? = some d') : c.number? p = c'.number? q ↔ c = c' := by
  obtain ⟨hcan, -, -⟩ := c.after_canonical hp hc
  obtain ⟨hq, hg⟩ := h.canonical hcan
  obtain ⟨hn, hw, hparts⟩ := hc.type? hd
  obtain ⟨-, -, -, hget⟩ := intern_canonical hp hn hw hparts
  rw [(Call.after_of_type? hd).1] at hg
  have hgetq := hg.get? hget (isDefined_of_structural hn)
  rw [(Call.after_of_type? hd).2, (Call.after_of_type? hd').2]
  constructor
  · intro heq
    obtain ⟨hn', hw', hparts'⟩ := hc'.type? hd'
    obtain ⟨-, -, hk, hget'⟩ := intern_canonical hq hn' hw' hparts'
    have hsame := hk _ _ hgetq
    rw [Option.some.inj heq, hget'] at hsame
    obtain rfl := Option.some.inj hsame
    exact Call.eq_of_type? hd hd'
  · rintro rfl
    obtain rfl := Option.some.inj (hd.symm.trans hd')
    rw [intern_eq hq hn hgetq]

/-- Interning is canonical. In a pool after any calls, with clean names and
types that are there: two structural calls, whatever is called between them,
give the same number exactly if they are the same call; a call made again, at
once or later, leaves the pool as it is; no call changes a type that is there
other than the one that it defines; and no two types are written alike. -/
theorem calls_canonical (hp : Later .initial p) :
    (∀ (c : Call) (q : Pool), c.Fits p → Later (c.after p) q → c.after q = q ∧
      ∀ c' : Call, c'.Fits q → c.type?.isSome → c'.type?.isSome →
        (c.number? p = c'.number? q ↔ c = c')) ∧
    (∀ (c : Call) (id : TypeId) (d : TypeDef), c.Fits p → p.get? id = some d →
      c.defines? ≠ some id → (c.after p).get? id = some d) ∧
    ∀ i j, (p.get? i).isSome → (p.get? j).isSome → p.name i = p.name j → i = j := by
  obtain ⟨hcan, -⟩ := hp.canonical initial_canonical
  refine ⟨fun c q hc h => ⟨after_again hcan hc h, fun c' hc' hd hd' => ?_⟩,
    fun c id d hc hd hne => (c.after_canonical hcan hc).2.2 id d hd hne,
    fun i j hi hj h => hcan.name_inj hi hj h⟩
  obtain ⟨d, hd⟩ := Option.isSome_iff_exists.1 hd
  obtain ⟨d', hd'⟩ := Option.isSome_iff_exists.1 hd'
  exact number?_eq_iff hcan hc h hc' hd hd'

/-- A pool in which a record has been declared. -/
def declared : Pool := (Call.declare "A" .record).after .initial

/-- A list and a tuple of a declared type have numbers of their own. -/
theorem declared_canonical : Later .initial declared ∧ (Call.list 7).Fits declared ∧
    ((Call.list 7).number? declared = (Call.tuple [7, 3]).number? ((Call.list 7).after declared) ↔
      Call.list 7 = Call.tuple [7, 3]) := by
  have hlater : Later .initial declared :=
    .single ⟨.declare "A" .record, by simp [Call.Fits, Clean], rfl⟩
  have hfits : (Call.list 7).Fits declared := by
    unfold Call.Fits
    decide +kernel
  have hfits' : (Call.tuple [7, 3]).Fits ((Call.list 7).after declared) := by
    unfold Call.Fits
    decide +kernel
  exact ⟨hlater, hfits, ((calls_canonical hlater).1 _ _ hfits .refl).2 _ hfits' rfl rfl⟩

end Pool

end RefCount
