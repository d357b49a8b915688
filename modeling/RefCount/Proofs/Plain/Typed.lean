/-
Runs without counts keep types. Every variable of every frame holds a tree of
its type, whatever the program does; so a closure that is called is one, and a
text that is asked for is there.

# The argument

A frame is typed if its variables hold trees of their types and the code that
is left is typed. One step takes a typed configuration to a typed one: an
instruction gives its variable a tree of its type, an edge hands a block trees
of the types of its parameters, a call starts a function with trees of the
types of its parameters, and a return gives a caller a tree of the type it
waits for.
-/
import Mathlib
import RefCount.Proofs.Plain.Machine
import RefCount.Proofs.Typing.Tree

namespace RefCount

open Ir List Option
open Machine (Tree Label)

variable {Θ : Typing}

-- ======== programs

/-- A function that comes with the machine has a type that is right for it. -/
def Typing.HostFits (Θ : Typing) (ft : FuncType) (name : String) : Prop :=
  match name with
  | "print" => (∃ t, ft.params.head? = some t ∧ Θ.Is .str t) ∧ Θ.Is .unit ft.result
  | "print_int" => Θ.Is .unit ft.result
  | "int_to_str" => Θ.Is .str ft.result
  | "drop" => Θ.Is .unit ft.result
  | "keep" => ∃ t, ft.params.head? = some t ∧ Θ.Fits t ft.result
  | _ => True

namespace Plain

variable {v : Var} {t r : Tree} {τ σ : TypeId} {ts rest : List Tree} {τs : List TypeId} {l : Label}
  {op : Op} {x y : Float} {pool : Pool} {b : Builtin} {variant : Int} {α : Type} {xs : List α}
  {func name : String} {ft : FuncType} {e : Entered} {c' : Config} {d : TypeDef}

/-- The functions of a program are typed, and everything is called by its
type. What the host gives back is of the type of the result, and what it prints
is a text. -/
structure Program.Typed (Θ : Typing) (P : Program) : Prop where
  pool : P.pool = Θ.pool
  func : ∀ name f, P.funcs.lookup name = some f →
    f.Typed Θ ∧ Θ.funcs.lookup name = some ⟨f.params.map (·.type), f.result⟩
  host : ∀ name ft ts r, P.funcs.lookup name = none → Θ.funcs.lookup name = some ft →
    Forall₂ Θ.Holds ft.params ts → P.host name ts = some r → Θ.Holds ft.result r
  print : ∀ ft, P.funcs.lookup "print" = none → Θ.funcs.lookup "print" = some ft →
    ∃ t, ft.params.head? = some t ∧ Θ.Is .str t

-- ======== frames

/-- A variable holds a tree of its type, if any. -/
def Frame.Holds (Θ : Typing) (fr : Frame) : Prop :=
  ∀ v t, fr.vars v = some t → ∃ τ, fr.func.type? v = some τ ∧ Θ.Holds τ t

/-- A function under way is typed. -/
structure Frame.Typed (Θ : Typing) (fr : Frame) : Prop where
  func : fr.func.Typed Θ
  code : ∀ x ∈ fr.code, x.Typed Θ fr.func
  term : ∀ t, fr.block.term = some t → t.Typed Θ fr.func
  vars : fr.Holds Θ

/-- Callers wait for a result of a type. -/
inductive Waiting (Θ : Typing) : TypeId → List (Frame × Var) → Prop
  | nil {r : TypeId} : Waiting Θ r []
  | cons {r : TypeId} {fr : Frame} {dst : Var} {rest : List (Frame × Var)}
      (hfr : fr.Typed Θ) (hdst : fr.func.type? dst = some r)
      (hrest : Waiting Θ fr.func.result rest) : Waiting Θ r ((fr, dst) :: rest)

/-- A configuration is typed. -/
structure Config.Typed (Θ : Typing) (c : Config) : Prop where
  top : c.top.Typed Θ
  callers : Waiting Θ c.top.func.result c.callers

variable {P : Program} {fr : Frame}

/-- A variable that has a type holds a tree of it. -/
theorem Frame.Typed.holds (h : fr.Typed Θ) {v : Var} {t : Tree} {τ : TypeId}
    (hv : fr.vars v = some t) (hτ : fr.func.type? v = some τ) : Θ.Holds τ t := by
  obtain ⟨τ', hτ', ht⟩ := h.vars v t hv
  rw [hτ] at hτ'
  cases hτ'
  exact ht

theorem Frame.Typed.holds_fits (hΘ : Θ.Coherent) (h : fr.Typed Θ) (hv : fr.vars v = some t)
    (hτ : fr.func.VarFits Θ v τ) : Θ.Holds τ t := by
  obtain ⟨a, ha, hf⟩ := hτ
  exact (h.holds hv ha).fits hΘ hf

theorem Frame.Typed.holds_all (hΘ : Θ.Coherent) (h : fr.Typed Θ) {vs : List Var}
    (hts : fr.getAll vs = some ts) (hτs : fr.func.VarsFit Θ vs τs) : Forall₂ Θ.Holds τs ts := by
  replace hts := Frame.getAll_eq_some.1 hts
  unfold Func.VarsFit at hτs
  induction hts generalizing τs with
  | nil =>
    cases hτs
    exact .nil
  | cons ht _ ih =>
    cases hτs with
    | cons hv hvs => exact .cons (h.holds_fits hΘ ht hv) (ih hvs)

/-- Assigning a tree of the type of a variable. -/
theorem Frame.Holds.assign (h : fr.Holds Θ) (hτ : fr.func.type? v = some τ) (ht : Θ.Holds τ t) :
    (fr.assign v t).Holds Θ := by
  intro u s hs
  by_cases hu : u = v
  · subst hu
    obtain rfl : t = s := by simpa [Frame.assign] using hs
    exact ⟨τ, hτ, ht⟩
  · exact h u s (by simpa [Frame.assign, hu] using hs)

-- ======== operations

open Typing

/-- Trees below a root are of types, one for one. -/
theorem below_node : ∀ {τs : List TypeId} {ts : List Tree},
    Forall₂ Θ.Holds τs ts → Below Θ.Holds τs (.node l ts) := by
  intro τs ts h i u hu
  obtain ⟨t, ht, hholds⟩ := forall₂_getElem? h hu
  rwa [Tree.child_node ht]

theorem literal_holds {v : Literal} (h : Θ.LitFits v τ) (pool : Pool) :
    Θ.Holds τ (literal pool v) := by
  rw [holds_iff h]
  cases v with
  | unit => exact rfl
  | str s => exact ⟨_, _, _, rfl⟩
  | _ => exact ⟨_, rfl⟩

/-- Arithmetic on integers gives integers. -/
theorem label_intPrim {x y : Int64} (h : scalar? (Machine.intPrim op x y) = some t) :
    ∃ n, t.label? = some (.int n) := by
  unfold Machine.intPrim at h
  split at h
  all_goals first
    | exact ⟨_, congrArg Tree.label? (some.inj h).symm⟩
    | (split at h
       · cases h
       · exact ⟨_, congrArg Tree.label? (some.inj h).symm⟩)
    | cases h

/-- Comparing floating-point numbers gives integers. -/
theorem label_floatPrim_order (hop : op ∈ ["lt", "le", "gt", "ge", "eq", "ne"])
    (h : scalar? (Machine.floatPrim op x y) = some t) : ∃ n, t.label? = some (.int n) := by
  simp only [mem_cons, not_mem_nil, or_false] at hop
  rcases hop with rfl | rfl | rfl | rfl | rfl | rfl
  all_goals exact ⟨_, congrArg Tree.label? (some.inj h).symm⟩

/-- Arithmetic on floating-point numbers gives floating-point numbers. -/
theorem label_floatPrim_arith (hop : op ∈ ["add", "sub", "mul", "div", "neg"])
    (h : scalar? (Machine.floatPrim op x y) = some t) : ∃ x, t.label? = some (.float x) := by
  simp only [mem_cons, not_mem_nil, or_false] at hop
  rcases hop with rfl | rfl | rfl | rfl | rfl
  all_goals exact ⟨_, congrArg Tree.label? (some.inj h).symm⟩

/-- What an operation on numbers does, by its first operand. -/
theorem prim_number (hop : isStringOp op (t :: rest) = false)
    (h : prim pool op (t :: rest) = some r) :
    (∃ x y, t.label? = some (.float x) ∧ scalar? (Machine.floatPrim op x y) = some r) ∨
      (∀ x, t.label? ≠ some (.float x)) ∧ ∃ n, r.label? = some (.int n) := by
  unfold prim at h
  simp only [hop, Bool.false_eq_true, if_false] at h
  split at h
  · next x hx => exact .inl ⟨x, _, hx, h⟩
  · next hx => exact .inr ⟨hx, label_intPrim h⟩

/-- An operation on strings gives a string or an integer. -/
theorem label_strPrim {texts : List Bytes} (h : strPrim pool op texts = some r) :
    (op = "concat" ∧ ∃ s, r = str pool s) ∨ op ≠ "concat" ∧ ∃ n, r.label? = some (.int n) := by
  unfold strPrim at h
  split at h
  · exact .inl ⟨rfl, _, (some.inj h).symm⟩
  · exact .inr ⟨by decide, _, congrArg Tree.label? (some.inj h).symm⟩
  · exact .inr ⟨by decide, _, congrArg Tree.label? (some.inj h).symm⟩
  · exact .inr ⟨by decide, _, congrArg Tree.label? (some.inj h).symm⟩
  · cases h

theorem prim_compare (hop : op ∈ ["lt", "le", "gt", "ge", "eq", "ne"])
    (h : prim pool op ts = some r) : ∃ n, r.label? = some (.int n) := by
  by_cases hs : isStringOp op ts
  · unfold prim at h
    rw [if_pos hs] at h
    obtain ⟨texts, -, h⟩ := bind_eq_some_iff.1 h
    rcases label_strPrim h with ⟨rfl, -⟩ | ⟨-, hr⟩
    · simp at hop
    · exact hr
  · rw [Bool.not_eq_true] at hs
    cases ts with
    | nil => simp [prim, hs] at h
    | cons t rest =>
      rcases prim_number hs h with ⟨x, y, -, hr⟩ | ⟨-, hr⟩
      · exact label_floatPrim_order hop hr
      · exact hr

/-- An operation on a number that is no comparison. -/
theorem isStringOp_number
    (hop : op ∈ ["add", "sub", "mul", "div", "rem", "neg", "and", "or", "not"]) :
    isStringOp op (t :: rest) = false := by
  simp only [mem_cons, not_mem_nil, or_false] at hop
  rcases hop with rfl | rfl | rfl | rfl | rfl | rfl | rfl | rfl | rfl
  all_goals rfl

/-- A root that is an integer is of every type of integers. -/
theorem holds_int (hb : b ∈ [Builtin.bool, .int, .char]) (hτ : Θ.Is b τ) :
    Θ.Holds τ t ↔ ∃ n, t.label? = some (.int n) := by
  rw [holds_iff hτ]
  simp only [mem_cons, not_mem_nil, or_false] at hb
  rcases hb with rfl | rfl | rfl
  all_goals exact .rfl

/-- Arithmetic on integers gives an integer. -/
theorem prim_int (hop : op ∈ ["add", "sub", "mul", "div", "rem", "neg", "and", "or", "not"])
    (ht : ∃ n, t.label? = some (.int n)) (h : prim pool op (t :: rest) = some r) :
    ∃ n, r.label? = some (.int n) := by
  obtain ⟨n, hn⟩ := ht
  rcases prim_number (isStringOp_number hop) h with ⟨x, _, hx, -⟩ | ⟨-, hr⟩
  · rw [hn] at hx
    cases hx
  · exact hr

/-- Arithmetic keeps to the kind of number. -/
theorem prim_arith (hop : op ∈ ["add", "sub", "mul", "div", "neg"])
    (hb : b ∈ [Builtin.int, .float]) (hτ : Θ.Is b τ) (hσ : Θ.Is b σ) (ht : Θ.Holds τ t)
    (h : prim pool op (t :: rest) = some r) : Θ.Holds σ r := by
  have hop' : op ∈ ["add", "sub", "mul", "div", "rem", "neg", "and", "or", "not"] := by
    simp only [mem_cons, not_mem_nil, or_false] at hop ⊢
    tauto
  simp only [mem_cons, not_mem_nil, or_false] at hb
  rcases hb with rfl | rfl
  · rw [holds_int (by simp) hτ] at ht
    rw [holds_int (by simp) hσ]
    exact prim_int hop' ht h
  · rw [holds_iff hτ] at ht
    rw [holds_iff hσ]
    obtain ⟨x, hx⟩ := ht
    rcases prim_number (isStringOp_number hop') h with ⟨_, _, -, hr⟩ | ⟨hne, -⟩
    · exact label_floatPrim_arith hop hr
    · exact absurd hx (hne x)

/-- No operand is of type `Never`. -/
theorem never_not_mem (hts : Forall₂ Θ.Holds τs ts) : TypeId.never ∉ τs := by
  induction hts with
  | nil => exact not_mem_nil
  | cons h _ ih =>
    intro hn
    rcases mem_cons.1 hn with rfl | hn
    · exact not_holds_never h
    · exact ih hn

/-- The result of an operation is of its type. -/
theorem prim_holds (hp : Θ.PrimFits op τs τ) (hts : Forall₂ Θ.Holds τs ts) (pool : Pool)
    (h : prim pool op ts = some r) : Θ.Holds τ r := by
  cases hp with
  | never hn => exact absurd hn (never_not_mem hts)
  | arith hop hb hτ hσ hr =>
    obtain ⟨_, rest, ht, -, rfl⟩ := forall₂_cons_left_iff.1 hts
    refine prim_arith ?_ hb hτ hr ht h
    simp only [mem_cons, not_mem_nil, or_false] at hop ⊢
    tauto
  | rem hτ hσ hr =>
    obtain ⟨_, rest, ht, -, rfl⟩ := forall₂_cons_left_iff.1 hts
    exact (holds_int (by simp) hr).2 (prim_int (by simp) ((holds_int (by simp) hτ).1 ht) h)
  | neg hb hτ hr =>
    obtain ⟨_, rest, ht, -, rfl⟩ := forall₂_cons_left_iff.1 hts
    exact prim_arith (by simp) hb hτ hr ht h
  | order hop hb hτ hσ hr =>
    refine (holds_int (by simp) hr).2 (prim_compare ?_ h)
    simp only [mem_cons, not_mem_nil, or_false] at hop ⊢
    tauto
  | equal hop hτ hσ hr =>
    refine (holds_int (by simp) hr).2 (prim_compare ?_ h)
    simp only [mem_cons, not_mem_nil, or_false] at hop ⊢
    tauto
  | logic hop hτ hσ hr =>
    obtain ⟨_, rest, ht, -, rfl⟩ := forall₂_cons_left_iff.1 hts
    refine (holds_int (by simp) hr).2 (prim_int ?_ ((holds_int (by simp) hτ).1 ht) h)
    simp only [mem_cons, not_mem_nil, or_false] at hop ⊢
    tauto
  | not hτ hr =>
    obtain ⟨_, rest, ht, -, rfl⟩ := forall₂_cons_left_iff.1 hts
    exact (holds_int (by simp) hr).2 (prim_int (by simp) ((holds_int (by simp) hτ).1 ht) h)
  | concat hτ hσ hr =>
    obtain ⟨texts, -, h⟩ := bind_eq_some_iff.1 h
    rcases label_strPrim h with ⟨-, s, rfl⟩ | ⟨hne, -⟩
    · rw [holds_iff hr]
      exact ⟨_, _, _, rfl⟩
    · exact absurd rfl hne
  | strlen hτ hr =>
    obtain ⟨texts, -, h⟩ := bind_eq_some_iff.1 h
    rcases label_strPrim h with ⟨hop, -⟩ | ⟨-, hr'⟩
    · exact absurd hop (by decide)
    · exact (holds_int (by simp) hr).2 hr'

/-- Only tuples, records and enums have fields. -/
theorem fields_ok (h : Θ.pool.fields τ variant = .ok τs) : Θ.pool.shape? τ = some (.tuple τs) ∨
      ∃ d, Θ.pool.shape? τ = some d ∧ d.kind ≠ .tuple ∧
        ((∃ n fs, d = .record n fs) ∨ ∃ n vs, d = .enum n vs) := by
  unfold Pool.fields at h
  cases hd : Θ.pool.shape? τ with
  | none => rw [hd] at h; cases h
  | some d =>
    rw [hd] at h
    cases d with
    | tuple es =>
      dsimp only at h
      split at h
      · cases h
        exact .inl rfl
      · cases h
    | record n fs => exact .inr ⟨_, rfl, by simp [TypeDef.kind], .inl ⟨n, fs, rfl⟩⟩
    | enum n vs => exact .inr ⟨_, rfl, by simp [TypeDef.kind], .inr ⟨n, vs, rfl⟩⟩
    | _ => simp [TypeDef.variants, Pool.at?] at h

/-- An index at which a list has an element. -/
theorem at_eq_some {i : Int} {a : α} (h : Pool.at? xs i = some a) : xs[i.toNat]? = some a := by
  unfold Pool.at? at h
  split at h
  · cases h
  · exact h

/-- What has no object has no fields either. -/
theorem fields_of_not_boxed (hτs : Θ.pool.fields τ variant = .ok τs)
    (hd : Θ.pool.shape? τ = some d) (hkind : d.kind ≠ .tuple) (hboxed : Θ.pool.isBoxed τ = false) :
    τs = [] := by
  unfold Pool.isBoxed at hboxed
  unfold Pool.fields at hτs
  rw [hd] at hboxed hτs
  cases d with
  | tuple es => exact absurd rfl hkind
  | record n fs => cases hboxed
  | enum n vs =>
    cases vs with
    | none => simp [TypeDef.variants, Pool.at?] at hτs
    | some vs =>
      dsimp only at hτs
      split at hτs
      · next v hv =>
        have hmem : v ∈ vs := mem_of_getElem? (at_eq_some hv)
        have hnone : v.fields = [] := by simpa using any_eq_false.1 hboxed v hmem
        rw [← Except.ok.inj hτs, hnone]
        rfl
      · cases hτs
  | _ => simp [TypeDef.variants, Pool.at?] at hτs

theorem fieldType?_ok {υ : TypeId} {field : Int}
    (h : Θ.pool.fieldType? τ variant field = some υ) :
    ∃ τs, Θ.pool.fields τ variant = .ok τs ∧ τs[field.toNat]? = some υ := by
  obtain ⟨τs, hτs, hυ⟩ := bind_eq_some_iff.1 h
  refine ⟨τs, ?_, at_eq_some hυ⟩
  cases hf : Θ.pool.fields τ variant with
  | error e => rw [hf] at hτs; cases hτs
  | ok us => rw [hf] at hτs; rw [some.inj hτs]

/-- What stands at the root of a tree whose type has fields. -/
theorem holds_fields (hτs : Θ.pool.fields τ variant = .ok τs) (ht : Θ.Holds τ t) :
    (variant = 0 ∧ t.label? = some (.tuple τs.length) ∧ Below Θ.Holds τs t) ∨
      (∃ w us, t.label? = some (.object (Θ.pool.underlying τ) w [] "" us.length) ∧
        Θ.pool.fields τ w = .ok us ∧ Below Θ.Holds us t) ∨
      τs = [] ∧ ∃ n vs m, Θ.pool.shape? τ = some (.enum n vs) ∧ t.label? = some (.int m) := by
  rcases fields_ok hτs with htuple | ⟨d, hd, hkind, hagg⟩
  · rw [holds_iff htuple] at ht
    simp only [Pool.fields, htuple] at hτs
    split at hτs
    · next hv => exact .inl ⟨hv, ht⟩
    · cases hτs
  · have hpayload : Θ.Payload Θ.Holds (Θ.pool.underlying τ) t → ∃ w us,
        t.label? = some (.object (Θ.pool.underlying τ) w [] "" us.length) ∧
          Θ.pool.fields τ w = .ok us ∧ Below Θ.Holds us t := by
      rintro ⟨w, us, hl, hus, hb⟩
      exact ⟨w, us, hl, (fields_underlying hd).1 hus, hb⟩
    rw [holds_iff hd] at ht
    rcases hagg with ⟨n, fs, rfl⟩ | ⟨n, vs, rfl⟩
    · exact .inr (.inl (hpayload ht))
    · rw [Root, isBoxed_underlying hd] at ht
      split at ht
      · exact .inr (.inl (hpayload ht))
      · next hboxed =>
        obtain ⟨m, hm⟩ := ht
        exact .inr (.inr ⟨fields_of_not_boxed hτs hd hkind (by simpa using hboxed), n, vs, m, hd, hm⟩)

theorem construct_holds (hτs : Θ.pool.fields τ variant = .ok τs)
    (hts : Forall₂ Θ.Holds τs ts) (h : construct Θ.pool τ variant ts = some r) : Θ.Holds τ r := by
  have hlen : τs.length = ts.length := hts.length_eq
  obtain ⟨shape, hshape, hr⟩ := map_eq_some_iff.1 h
  rcases fields_ok hτs with htuple | ⟨d, hd, hkind, hagg⟩
  · rw [htuple] at hshape
    cases hshape
    have hkind : (TypeDef.tuple τs).kind = .tuple := rfl
    rw [if_pos hkind] at hr
    subst hr
    rw [holds_iff htuple]
    exact ⟨by rw [hlen]; rfl, below_node hts⟩
  · rw [hd] at hshape
    cases hshape
    rw [if_neg hkind] at hr
    have hpay : Θ.Payload Θ.Holds (Θ.pool.underlying τ)
        (.node (.object (Θ.pool.underlying τ) variant [] "" ts.length) ts) :=
      ⟨variant, τs, by rw [hlen]; rfl, (fields_underlying hd).2 hτs, below_node hts⟩
    rw [holds_iff hd]
    rcases hagg with ⟨n, fs, rfl⟩ | ⟨n, vs, rfl⟩
    · have hboxed : Θ.pool.isBoxed τ = true := by
        unfold Pool.isBoxed
        rw [hd]
      rw [if_pos hboxed] at hr
      subst hr
      exact hpay
    · rw [Root, isBoxed_underlying hd]
      split
      · next hboxed =>
        rw [if_pos hboxed] at hr
        subst hr
        exact hpay
      · next hboxed =>
        rw [if_neg hboxed] at hr
        subst hr
        exact ⟨_, rfl⟩

/-- A field of a tree is of the type of the field. -/
theorem project_holds {υ : TypeId} {field : Int} (ht : Θ.Holds τ t)
    (hυ : Θ.pool.fieldType? τ variant field = some υ) (h : project t variant field = some r) :
    Θ.Holds υ r := by
  obtain ⟨τs, hτs, hget⟩ := fieldType?_ok hυ
  unfold project at h
  rcases holds_fields hτs ht with ⟨-, hl, hb⟩ | ⟨w, us, hl, hus, hb⟩ | ⟨rfl, -⟩
  · rw [hl] at h
    dsimp only at h
    split at h
    · cases h
      exact hb _ _ hget
    · cases h
  · -- an object that is projected from has the variant that is asked for
    rw [hl] at h
    dsimp only at h
    split at h
    · next hcond =>
      obtain ⟨rfl, -⟩ := hcond
      cases hτs.symm.trans hus
      cases h
      exact hb _ _ hget
    · cases h
  · cases hget

theorem tagOf_holds (h : tagOf t = some r) : Θ.Holds .int r := by
  rw [holds_int (by simp) Θ.builtins.int]
  unfold tagOf at h
  split at h
  · exact ⟨_, congrArg Tree.label? (some.inj h).symm⟩
  · exact ⟨_, congrArg Tree.label? (some.inj h).symm⟩
  · cases h

/-- A closure is of the type of what is left of its function. -/
theorem closure_holds (hft : Θ.funcs.lookup func = some ft)
    (hτ : Θ.pool.shape? τ = some (.fn (ft.params.drop ts.length) ft.result))
    (hts : Forall₂ Θ.Holds (ft.params.take ts.length) ts) :
    Θ.Holds τ (closure Θ.pool τ func ts) := by
  have hlen := hts.length_eq
  rw [length_take] at hlen
  rw [holds_iff hτ]
  exact ⟨_, _, _, func, ts.length, ft, rfl, hft, by omega, rfl, rfl, below_node hts⟩

-- ======== moves

/-- A frame that only moves within its function stays typed. -/
theorem Frame.Typed.goTo (h : fr.Typed Θ) {target : Target} {next : Frame}
    (hgo : fr.goTo target = some next) : next.Typed Θ ∧ next.func = fr.func ∧ next.vars = fr.vars ∧
      target.bind fr.func.block? = some next.block := by
  obtain ⟨b, hb, rfl⟩ := map_eq_some_iff.1 hgo
  obtain ⟨i, -, hi⟩ := bind_eq_some_iff.1 hb
  have hblock : b.Typed Θ fr.func := h.func.blocks b (Array.mem_of_getElem? hi)
  exact ⟨⟨h.func, hblock.code, hblock.term, h.vars⟩, rfl, rfl, hb⟩

/-- Assigning trees of the types of variables. -/
theorem Frame.Holds.assignAll : ∀ {vs : List Var} {fr fr' : Frame} {τs : List TypeId}
    {ts : List Tree}, fr.Holds Θ → fr.func.HasTypes vs τs →
    Forall₂ Θ.Holds τs ts → fr.assignAll vs ts = some fr' →
    fr'.Holds Θ ∧ fr'.func = fr.func ∧ fr'.block = fr.block ∧ fr'.code = fr.code := by
  intro vs
  induction vs with
  | nil =>
    intro fr fr' τs ts h _ _ hall
    cases hall
    exact ⟨h, rfl, rfl, rfl⟩
  | cons v vs ih =>
    intro fr fr' τs ts h hτs hts hall
    cases hτs with
    | cons hv hvs =>
      cases hts with
      | cons ht hts =>
        have hrest := ih (h.assign hv ht) hvs hts hall
        exact hrest

/-- What a call leads to is of the type of its result. -/
def Entered.Typed (Θ : Typing) (r : TypeId) : Entered → Prop
  | .result t => Θ.Holds r t
  | .frame fr => fr.Typed Θ ∧ fr.func.result = r

/-- The first of related lists are related. -/
theorem forall₂_head {β : Type} {R : α → β → Prop} {ys : List β} {x : α}
    (h : Forall₂ R xs ys) (hx : xs.head? = some x) : ∃ y, ys.head? = some y ∧ R x y := by
  cases h with
  | nil => cases hx
  | cons hxy _ =>
    cases hx
    exact ⟨_, rfl, hxy⟩

theorem builtin_holds (hΘ : Θ.Coherent) (hh : Θ.HostFits ft name)
    (hts : Forall₂ Θ.Holds ft.params ts) (h : builtin? Θ.pool name ts = some r) :
    Θ.Holds ft.result r := by
  unfold builtin? at h
  split at h
  · cases h
    rw [holds_iff hh.2]
    exact rfl
  · cases h
    rw [holds_iff hh]
    exact rfl
  · obtain ⟨t, -, rfl⟩ := map_eq_some_iff.1 h
    rw [holds_iff hh]
    exact ⟨_, _, _, rfl⟩
  · cases h
    rw [holds_iff hh]
    exact rfl
  · obtain ⟨τ, hτ, hf⟩ := hh
    obtain ⟨t, ht, hold⟩ := forall₂_head hts hτ
    rw [ht] at h
    cases h
    exact hold.fits hΘ hf
  · cases h

theorem Program.typed_standard (hΘ : Θ.Coherent) {funcs : List (String × Func)}
    (hfunc : ∀ name f, funcs.lookup name = some f →
      f.Typed Θ ∧ Θ.funcs.lookup name = some ⟨f.params.map (·.type), f.result⟩)
    (hhost : ∀ name ft, funcs.lookup name = none → Θ.funcs.lookup name = some ft →
      Θ.HostFits ft name) : (Program.standard Θ.pool funcs).Typed Θ where
  pool := rfl
  func := hfunc
  host name ft _ _ hnone hft hts h := builtin_holds hΘ (hhost name ft hnone hft) hts h
  print ft hnone hft := (hhost "print" ft hnone hft).1

/-- A call with arguments of the types of the parameters. -/
theorem enter_typed (hP : P.Typed Θ) (hft : Θ.funcs.lookup name = some ft)
    (hts : Forall₂ Θ.Holds ft.params ts) (h : enter P name ts = some e) : e.Typed Θ ft.result := by
  unfold enter at h
  cases hf : P.funcs.lookup name with
  | none =>
    rw [hf] at h
    obtain ⟨t, ht, rfl⟩ := map_eq_some_iff.1 h
    exact hP.host name ft ts t hf hft hts ht
  | some f =>
    rw [hf] at h
    dsimp only at h
    obtain ⟨hfty, hft'⟩ := hP.func name f hf
    rw [hft] at hft'
    cases hft'
    split at h
    · obtain ⟨fr, hfr, rfl⟩ := map_eq_some_iff.1 h
      obtain ⟨fr', hall, hgo⟩ := bind_eq_some_iff.1 hfr
      have hempty : Frame.Holds Θ ⟨f, default, [], fun _ => none⟩ := fun v t hv => nomatch hv
      have hparams : f.HasTypes (f.params.map (·.var)) (f.params.map (·.type)) := by
        unfold Func.HasTypes
        rw [forall₂_map_left_iff, forall₂_map_right_iff, forall₂_same]
        exact hfty.params
      obtain ⟨hvars, hfunc, hblock, hcode⟩ := hempty.assignAll hparams hts hall
      have hstart : fr'.Typed Θ := by
        refine ⟨hfunc ▸ hfty, fun x hx => ?_, fun t ht => ?_, hvars⟩
        · rw [hcode] at hx
          cases hx
        · rw [hblock] at ht
          cases ht
      obtain ⟨hfr, hfunc', -, -⟩ := hstart.goTo hgo
      exact ⟨hfr, by rw [hfunc', hfunc]⟩
    · cases h

/-- What a closure holds, and then its arguments, fit the parameters of its
function. -/
theorem captured_append {P : TypeId → Tree → Prop} {params : List TypeId} {n : Nat}
    (hn : n ≤ params.length) (hb : Typing.Below P (params.take n) t)
    (hts : Forall₂ P (params.drop n) ts) : Forall₂ P params (t.children n ++ ts) := by
  have hcaptured : Forall₂ P (params.take n) (t.children n) := by
    rw [forall₂_iff_get]
    have hlen : (params.take n).length = n := by
      rw [length_take]
      omega
    refine ⟨by simp [Tree.children, hlen], fun i hi _ => ?_⟩
    have := hb i _ (getElem?_eq_getElem hi)
    simpa [Tree.children] using this
  have happ : Forall₂ P (params.take n ++ params.drop n) (t.children n ++ ts) :=
    rel_append hcaptured hts
  rwa [take_append_drop] at happ

/-- The arguments of the call of a closure are of the types of the parameters
of its function. -/
theorem callable_args {ps : List TypeId} {r : TypeId} {ty : TypeId} {v : Int} {s : Bytes}
    {n : Nat} (ht : Θ.Callable Θ.Holds ps r t) (hl : t.label? = some (.object ty v s func n))
    (hts : Forall₂ Θ.Holds ps ts) : ∃ ft, Θ.funcs.lookup func = some ft ∧ ft.result = r ∧
      Forall₂ Θ.Holds ft.params (t.children n ++ ts) := by
  obtain ⟨_, _, _, _, _, ft, hl', hft, hk, rfl, hr, hb⟩ := ht
  rw [hl] at hl'
  obtain ⟨-, -, -, rfl, rfl⟩ := Label.object.inj (some.inj hl')
  exact ⟨ft, hft, hr, captured_append hk hb hts⟩

-- ======== steps

variable {c : Config}

/-- A frame behind an instruction stays typed when the instruction gives its
variable a tree of its type. -/
theorem Frame.Typed.assign (h : fr.Typed Θ) (hτ : fr.func.type? v = some τ) (ht : Θ.Holds τ t) :
    (fr.assign v t).Typed Θ :=
  ⟨h.func, h.code, h.term, h.vars.assign hτ ht⟩

/-- Going on after a call keeps types. -/
theorem continueWith_typed (hfr : fr.Typed Θ) (hc : Waiting Θ fr.func.result c.callers)
    {dst : Var} {r : TypeId} (hdst : fr.func.type? dst = some r) (he : e.Typed Θ r) :
    (continueWith c fr dst e).Typed Θ := by
  cases e with
  | result t => exact ⟨hfr.assign hdst he, hc⟩
  | frame callee =>
    obtain ⟨hcallee, hres⟩ := he
    exact ⟨hcallee, hres ▸ .cons hfr hdst hc⟩

theorem exec_typed (hΘ : Θ.Coherent) (hP : P.Typed Θ) (hfr : fr.Typed Θ)
    (hc : Waiting Θ fr.func.result c.callers) {x : Instr} (hx : x.Typed Θ fr.func)
    (h : exec P c fr x = some c') : c'.Typed Θ := by
  cases x with
  | lit dst v =>
    obtain ⟨τ, hτ, hv⟩ := hx
    cases h
    exact ⟨hfr.assign hτ (literal_holds hv _), hc⟩
  | move dst src =>
    obtain ⟨τ, hτ, hsrc⟩ := hx
    obtain ⟨t, ht, rfl⟩ := map_eq_some_iff.1 h
    exact ⟨hfr.assign hτ (hfr.holds_fits hΘ ht hsrc), hc⟩
  | prim dst op args =>
    obtain ⟨τs, τ, hτs, hτ, hp⟩ := hx
    obtain ⟨ts, hts, h⟩ := bind_eq_some_iff.1 h
    obtain ⟨t, ht, h⟩ := bind_eq_some_iff.1 h
    cases h
    have hall : Forall₂ Θ.Holds τs ts :=
      hfr.holds_all hΘ hts (hτs.imp fun v τ hv => ⟨τ, hv, Θ.fits_refl τ⟩)
    exact ⟨hfr.assign hτ (prim_holds hp hall _ ht), hc⟩
  | call dst func args tail =>
    obtain ⟨ft, hft, hargs, hdst⟩ := hx
    obtain ⟨ts, hts, h⟩ := bind_eq_some_iff.1 h
    obtain ⟨e, he, h⟩ := bind_eq_some_iff.1 h
    cases h
    exact continueWith_typed hfr hc hdst (enter_typed hP hft (hfr.holds_all hΘ hts hargs) he)
  | callClosure dst callee args =>
    obtain ⟨τ, ps, r, hτ, hshape, hargs, hdst⟩ := hx
    obtain ⟨t, ht, h⟩ := bind_eq_some_iff.1 h
    obtain ⟨ts, hts, h⟩ := bind_eq_some_iff.1 h
    have hcall := hfr.holds ht hτ
    rw [holds_iff hshape] at hcall
    split at h
    · next hl =>
      obtain ⟨e, he, h⟩ := bind_eq_some_iff.1 h
      cases h
      obtain ⟨ft, hft, rfl, hall⟩ := callable_args hcall hl (hfr.holds_all hΘ hts hargs)
      exact continueWith_typed hfr hc hdst (enter_typed hP hft hall he)
    · cases h
  | closure dst func captures =>
    obtain ⟨ft, τ, hft, hargs, hdst, hshape⟩ := hx
    obtain ⟨ts, hts, h⟩ := bind_eq_some_iff.1 h
    cases h
    have hall := hfr.holds_all hΘ hts hargs
    have hlen : captures.length = ts.length := (Frame.getAll_eq_some.1 hts).length_eq
    rw [hlen] at hall hshape
    have htype : fr.func.typeOf dst = τ := by simp [Func.typeOf, hdst]
    rw [htype, hP.pool]
    exact ⟨hfr.assign hdst (closure_holds hft hshape hall), hc⟩
  | construct dst τ variant args =>
    obtain ⟨hdst, τs, hτs, hargs⟩ := hx
    obtain ⟨ts, hts, h⟩ := bind_eq_some_iff.1 h
    obtain ⟨t, ht, h⟩ := bind_eq_some_iff.1 h
    cases h
    rw [hP.pool] at ht
    exact ⟨hfr.assign hdst (construct_holds hτs (hfr.holds_all hΘ hts hargs) ht), hc⟩
  | project dst src variant field =>
    obtain ⟨τ, υ, hτ, hυ, hdst⟩ := hx
    obtain ⟨t, ht, h⟩ := bind_eq_some_iff.1 h
    obtain ⟨r, hr, h⟩ := bind_eq_some_iff.1 h
    cases h
    exact ⟨hfr.assign hdst (project_holds (hfr.holds ht hτ) hυ hr), hc⟩
  | tag dst src =>
    obtain ⟨hdst, -⟩ := hx
    obtain ⟨t, ht, h⟩ := bind_eq_some_iff.1 h
    obtain ⟨r, hr, h⟩ := bind_eq_some_iff.1 h
    cases h
    exact ⟨hfr.assign hdst (tagOf_holds hr), hc⟩
  | _ => exact absurd hx id

/-- A tree handed to a caller is of the type that it waits for. -/
theorem returnTree_typed {callers : List (Frame × Var)} {r : TypeId} (hw : Waiting Θ r callers)
    (ht : Θ.Holds r t) (h : returnTree callers t = .running c') : c'.Typed Θ := by
  cases hw with
  | nil => cases h
  | cons hfr hdst hrest =>
    cases h
    exact ⟨hfr.assign hdst ht, hrest⟩

theorem execTerm_typed (hΘ : Θ.Coherent) (hc : c.Typed Θ) (h : execTerm c = some (.running c')) :
    c'.Typed Θ := by
  have hmove : ∀ {target : Target},
      (c.top.goTo target).map (fun next => Progress.running { c with top := next }) =
        some (.running c') → c'.Typed Θ := by
    intro target h
    obtain ⟨next, hgo, h⟩ := map_eq_some_iff.1 h
    cases h
    obtain ⟨hnext, hfunc, -, -⟩ := hc.top.goTo hgo
    refine ⟨hnext, ?_⟩
    show Waiting Θ next.func.result c.callers
    rw [hfunc]
    exact hc.callers
  have hterm := hc.top.term
  unfold execTerm at h
  dsimp only at h
  cases ht : c.top.block.term with
  | none => rw [ht] at h; cases h
  | some term =>
    rw [ht] at h
    have hterm := hterm term ht
    cases term with
    | ret v =>
      obtain ⟨t, hv, h⟩ := map_eq_some_iff.1 h
      exact returnTree_typed hc.callers (hc.top.holds_fits hΘ hv hterm) h
    | jump target args =>
      obtain ⟨b, block, τs, rfl, hb, hτs, hargs⟩ := hterm
      obtain ⟨ts, hts, h⟩ := bind_eq_some_iff.1 h
      obtain ⟨next, hgo, h⟩ := bind_eq_some_iff.1 h
      obtain ⟨fr, hall, h⟩ := bind_eq_some_iff.1 h
      cases h
      obtain ⟨hnext, hfunc, hvars, hblock⟩ := hc.top.goTo hgo
      cases hb.symm.trans hblock
      have hτs : next.func.HasTypes next.block.params τs := hfunc ▸ hτs
      obtain ⟨hholds, hf, hb', hcode⟩ :=
        hnext.vars.assignAll hτs (hc.top.holds_all hΘ hts hargs) hall
      refine ⟨⟨?_, ?_, ?_, hholds⟩, ?_⟩
      · exact hf ▸ hnext.func
      · rw [hcode, hf]
        exact hnext.code
      · rw [hb', hf]
        exact hnext.term
      · show Waiting Θ fr.func.result c.callers
        rw [hf, hfunc]
        exact hc.callers
    | branch cond thenTo elseTo =>
      obtain ⟨t, -, h⟩ := bind_eq_some_iff.1 h
      exact hmove h
    | switch v cases default =>
      obtain ⟨t, -, h⟩ := bind_eq_some_iff.1 h
      exact hmove h
    | unreachable => cases h

theorem step_typed (hΘ : Θ.Coherent) (hP : P.Typed Θ) (hc : c.Typed Θ)
    (h : step P c = some (.running c')) : c'.Typed Θ := by
  unfold step at h
  cases hcode : c.top.code with
  | nil =>
    rw [hcode] at h
    exact execTerm_typed hΘ hc h
  | cons x rest =>
    rw [hcode] at h
    obtain ⟨c'', hx, h⟩ := map_eq_some_iff.1 h
    cases h
    have hcode' := hc.top.code
    rw [hcode] at hcode'
    have hfr : Frame.Typed Θ { c.top with code := rest } :=
      ⟨hc.top.func, fun y hy => hcode' y (mem_cons_of_mem x hy), hc.top.term, hc.top.vars⟩
    exact exec_typed hΘ hP hfr hc.callers (hcode' x (.head _)) hx

-- ======== what is asked

/-- The host is asked to print a text that is there. -/
def EnterAsks (P : Program) (name : String) (ts : List Tree) : Prop :=
  P.funcs.lookup name = none → name = "print" → ∀ t, ts.head? = some t → isObject t

/-- The texts and closures that an instruction looks at are there, and what is
constructed without an object has nothing in it. -/
def Asks (P : Program) (fr : Frame) : Instr → Prop
  | .prim _ op args =>
    ∀ ts, fr.getAll args = some ts → isStringOp op ts → ∀ t ∈ ts, isObject t
  | .call _ func args _ => ∀ ts, fr.getAll args = some ts → EnterAsks P func ts
  | .callClosure _ callee args =>
    ∀ t ts, fr.vars callee = some t → fr.getAll args = some ts →
      ∃ ty v s func n, t.label? = some (.object ty v s func n) ∧
        EnterAsks P func (t.children n ++ ts)
  | .construct _ type _ args =>
    ∀ d, P.pool.shape? type = some d → d.kind ≠ .tuple → P.pool.isBoxed type = false →
      args = []
  | _ => True

/-- What a terminator looks at is a number. -/
def TermAsks (fr : Frame) : Term → Prop
  | .branch v _ _ => ∀ t, fr.vars v = some t → ∃ n, t.label? = some (.int n)
  | .switch v _ _ => ∀ t, fr.vars v = some t → ∃ n, t.label? = some (.int n)
  | _ => True

theorem isObject_of_label (h : t.label? = some l) : isObject t = l.isObject := by
  unfold isObject
  rw [h]
  rfl

theorem Payload.isObject {P : TypeId → Tree → Prop} (h : Θ.Payload P τ t) : isObject t = true := by
  obtain ⟨v, ts, hl, -⟩ := h
  exact isObject_of_label hl

theorem isObject_str (hτ : Θ.Is .str τ) (ht : Θ.Holds τ t) : isObject t = true := by
  rw [holds_iff hτ] at ht
  obtain ⟨_, _, _, hl⟩ := ht
  exact isObject_of_label hl

/-- Of trees of types of one shape, all or none are objects. -/
theorem isObject_congr {u : Tree} (hτ : Θ.pool.shape? τ = some d) (hσ : Θ.pool.shape? σ = some d)
    (hvar : ∀ n, d ≠ .var n) (ht : Θ.Holds τ t) (hu : Θ.Holds σ u) : isObject t = isObject u := by
  rw [holds_iff hτ] at ht
  rw [holds_iff hσ] at hu
  cases d with
  | builtin b =>
    cases b with
    | unit => rw [isObject_of_label ht, isObject_of_label hu]
    | never => exact absurd ht id
    | str =>
      obtain ⟨_, _, _, ht⟩ := ht
      obtain ⟨_, _, _, hu⟩ := hu
      rw [isObject_of_label ht, isObject_of_label hu]
      rfl
    | bool | int | char | float =>
      obtain ⟨_, ht⟩ := ht
      obtain ⟨_, hu⟩ := hu
      rw [isObject_of_label ht, isObject_of_label hu]
      rfl
  | list e =>
    obtain ⟨_, ht, ht'⟩ := ht
    obtain ⟨_, hu, hu'⟩ := hu
    rw [isObject_of_label ht, isObject_of_label hu, ht', hu']
  | fn ps r =>
    obtain ⟨_, _, _, _, _, _, ht, -⟩ := ht
    obtain ⟨_, _, _, _, _, _, hu, -⟩ := hu
    rw [isObject_of_label ht, isObject_of_label hu]
    rfl
  | tuple es => rw [isObject_of_label ht.1, isObject_of_label hu.1]
  | var n => exact absurd rfl (hvar n)
  | record n fs => rw [Payload.isObject ht, Payload.isObject hu]
  | enum n vs =>
    have hboxed : Θ.pool.isBoxed (Θ.pool.underlying τ) =
        Θ.pool.isBoxed (Θ.pool.underlying σ) := by
      rw [isBoxed_underlying hτ, isBoxed_underlying hσ]
      unfold Pool.isBoxed
      rw [hτ, hσ]
    rw [Root] at ht hu
    rw [hboxed] at ht
    split at ht
    · next hb =>
      rw [if_pos hb] at hu
      rw [Payload.isObject ht, Payload.isObject hu]
    · next hb =>
      rw [if_neg hb] at hu
      obtain ⟨_, ht⟩ := ht
      obtain ⟨_, hu⟩ := hu
      rw [isObject_of_label ht, isObject_of_label hu]
      rfl
  | synonym n target => exact absurd rfl (shape_ne hτ n target)

/-- The operands of an operation on strings are strings, or at least objects
where they are only compared. -/
theorem prim_asks (hp : Θ.PrimFits op τs τ) (hts : Forall₂ Θ.Holds τs ts)
    (hop : isStringOp op ts = true) : ∀ t ∈ ts, isObject t = true := by
  have hnumber : ∀ {t : Tree} {rest : List Tree},
      op ∈ ["add", "sub", "mul", "div", "rem", "neg", "and", "or", "not"] →
      ts = t :: rest → ∀ t ∈ ts, isObject t = true := by
    rintro t rest hop' rfl
    rw [isStringOp_number hop'] at hop
    cases hop
  cases hp with
  | never hn => exact absurd hn (never_not_mem hts)
  | arith hop' _ _ _ _ =>
    obtain ⟨_, rest, -, -, rfl⟩ := forall₂_cons_left_iff.1 hts
    refine hnumber ?_ rfl
    simp only [mem_cons, not_mem_nil, or_false] at hop' ⊢
    tauto
  | rem _ _ _ =>
    obtain ⟨_, rest, -, -, rfl⟩ := forall₂_cons_left_iff.1 hts
    exact hnumber (by simp) rfl
  | neg _ _ _ =>
    obtain ⟨_, rest, -, -, rfl⟩ := forall₂_cons_left_iff.1 hts
    exact hnumber (by simp) rfl
  | order hop' _ _ _ _ =>
    simp only [mem_cons, not_mem_nil, or_false] at hop'
    rcases hop' with rfl | rfl | rfl | rfl
    all_goals cases hop
  | equal hop' hτ hσ _ =>
    obtain ⟨t, _, ht, hrest, rfl⟩ := forall₂_cons_left_iff.1 hts
    obtain ⟨u, _, hu, hnil, rfl⟩ := forall₂_cons_left_iff.1 hrest
    cases hnil
    obtain ⟨d, hd, hvar⟩ := hτ
    have hfirst : isObject t = true := by
      simp only [mem_cons, not_mem_nil, or_false] at hop'
      rcases hop' with rfl | rfl
      all_goals simpa [isStringOp] using hop
    have hsecond := (isObject_congr hd (hσ ▸ hd) hvar ht hu).symm.trans hfirst
    intro s hs
    simp only [mem_cons, not_mem_nil, or_false] at hs
    rcases hs with rfl | rfl
    · exact hfirst
    · exact hsecond
  | logic hop' _ _ _ =>
    obtain ⟨_, rest, -, -, rfl⟩ := forall₂_cons_left_iff.1 hts
    refine hnumber ?_ rfl
    simp only [mem_cons, not_mem_nil, or_false] at hop' ⊢
    tauto
  | not _ _ =>
    obtain ⟨_, rest, -, -, rfl⟩ := forall₂_cons_left_iff.1 hts
    exact hnumber (by simp) rfl
  | concat hτ hσ _ =>
    obtain ⟨t, _, ht, hrest, rfl⟩ := forall₂_cons_left_iff.1 hts
    obtain ⟨u, _, hu, hnil, rfl⟩ := forall₂_cons_left_iff.1 hrest
    cases hnil
    intro s hs
    simp only [mem_cons, not_mem_nil, or_false] at hs
    rcases hs with rfl | rfl
    · exact isObject_str hτ ht
    · exact isObject_str hσ hu
  | strlen hτ _ =>
    obtain ⟨t, _, ht, hnil, rfl⟩ := forall₂_cons_left_iff.1 hts
    cases hnil
    intro s hs
    obtain rfl := mem_singleton.1 hs
    exact isObject_str hτ ht

/-- What the host is asked to print is a text. -/
theorem enter_asks (hP : P.Typed Θ) (hft : Θ.funcs.lookup name = some ft)
    (hts : Forall₂ Θ.Holds ft.params ts) : EnterAsks P name ts := by
  rintro hnone rfl t ht
  obtain ⟨τ, hτ, hstr⟩ := hP.print ft hnone hft
  obtain ⟨t', ht', hold⟩ := forall₂_head hts hτ
  rw [ht] at ht'
  cases ht'
  exact isObject_str hstr hold

/-- What an instruction of a typed frame looks at is there. -/
theorem asks_of_typed (hΘ : Θ.Coherent) (hP : P.Typed Θ) (hfr : fr.Typed Θ) {x : Instr}
    (hx : x.Typed Θ fr.func) : Asks P fr x := by
  cases x with
  | prim dst op args =>
    obtain ⟨τs, τ, hτs, -, hp⟩ := hx
    intro ts hts hop
    exact prim_asks hp (hfr.holds_all hΘ hts (hτs.imp fun v τ hv => ⟨τ, hv, Θ.fits_refl τ⟩)) hop
  | call dst func args tail =>
    obtain ⟨ft, hft, hargs, -⟩ := hx
    intro ts hts
    exact enter_asks hP hft (hfr.holds_all hΘ hts hargs)
  | callClosure dst callee args =>
    obtain ⟨τ, ps, r, hτ, hshape, hargs, -⟩ := hx
    intro t ts ht hts
    have hcall := hfr.holds ht hτ
    rw [holds_iff hshape] at hcall
    obtain ⟨ty, v, s, f, k, ft, hl, -⟩ := id hcall
    obtain ⟨ft', hft', -, hall⟩ := callable_args hcall hl (hfr.holds_all hΘ hts hargs)
    exact ⟨ty, v, s, f, k, hl, enter_asks hP hft' hall⟩
  | construct dst τ variant args =>
    obtain ⟨-, τs, hτs, hargs⟩ := hx
    intro d hd hkind hboxed
    rw [hP.pool] at hd hboxed
    obtain rfl := fields_of_not_boxed hτs hd hkind hboxed
    cases hargs
    rfl
  | _ => trivial

/-- What a terminator of a typed frame looks at is a number. -/
theorem termAsks_of_typed (hΘ : Θ.Coherent) (hfr : fr.Typed Θ) {x : Term}
    (hx : x.Typed Θ fr.func) : TermAsks fr x := by
  cases x with
  | branch v a b =>
    intro t ht
    exact (holds_int (by simp) Θ.builtins.bool).1 (hfr.holds_fits hΘ ht hx)
  | switch v cases default =>
    obtain ⟨τ, hτ, b, hb, hshape⟩ := hx
    intro t ht
    refine (holds_int (b := b) ?_ hshape).1 (hfr.holds ht hτ)
    simp only [mem_cons, not_mem_nil, or_false] at hb ⊢
    tauto
  | _ => trivial

end Plain

end RefCount
