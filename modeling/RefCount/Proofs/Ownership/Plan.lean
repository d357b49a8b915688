/-
Who owns what. A plan says, for every point of a function, how many references
each variable owns there, and which variables are parts of what another one
owns. `Moves` says how an instruction changes that, and when it may: what it
consumes must be owned, what it looks at must be held by someone, and what it
defines must own nothing, so that no reference is lost. `Ahead` follows a plan
through the rest of a block to its terminator, and `Follows` says that a plan
fits a whole function.

# Three kinds of variables

A variable that is not counted holds no references, so it matters to nobody. A
derived variable is an alias of a borrowed parameter: it owns nothing, and the
caller keeps what it holds. Every other variable owns the references that it
holds, once or several times, or is a part of what another one owns: the value
of a field.

Some variables are never assigned, because what would assign them reads them
first. Whatever reads such a variable goes no further, so a plan may say
anything of what follows (`Moves.stuck`).
-/
import Mathlib
import RefCount.Borrow.Infer

namespace RefCount.Ownership

open Ir List

-- ======== states

/-- What is known of the variables of a function. -/
structure Roles where
  /-- Whether a variable may hold references. -/
  counted : Var → Bool
  /-- Whether a variable is an alias of a borrowed parameter. -/
  derived : Var → Bool
  /-- Whether a variable is never assigned. -/
  never : Var → Prop

/-- Who owns what at a point. -/
structure Holding where
  /-- How many references a variable owns. -/
  own : Var → Nat
  /-- The variable and the field that a variable is a part of. -/
  part : Var → Option (Var × Nat)

namespace Holding

/-- One reference less; without any left a variable has no parts. -/
def spend (σ : Holding) (v : Var) : Holding where
  own := Function.update σ.own v (σ.own v - 1)
  part x := (σ.part x).filter fun q => !(q.1 = v && σ.own v ≤ 1)

/-- One reference more. -/
def add (σ : Holding) (v : Var) : Holding :=
  { σ with own := Function.update σ.own v (σ.own v + 1) }

/-- A variable owns what it has been assigned. -/
def gain (r : Roles) (σ : Holding) (v : Var) : Holding where
  own := Function.update σ.own v (if r.counted v then 1 else 0)
  part := Function.update σ.part v none

/-- A variable is assigned a part of another. -/
def view (σ : Holding) (v src : Var) (k : Nat) : Holding :=
  { σ with part := Function.update σ.part v (some (src, k)) }

/-- A variable is assigned an alias of a borrowed parameter. -/
def forget (σ : Holding) (v : Var) : Holding :=
  { σ with part := Function.update σ.part v none }

/-- One reference less for each of some variables. -/
def spendAll (σ : Holding) (vs : List Var) : Holding := vs.foldl spend σ

/-- Variables own what they have been assigned. -/
def gainAll (r : Roles) (σ : Holding) (vs : List Var) : Holding := vs.foldl (gain r) σ

/-- A reference can be spent for each of some variables that may hold any. -/
def Covers (r : Roles) (σ : Holding) : List Var → Prop
  | [] => True
  | v :: vs => (r.counted v → 0 < σ.own v) ∧ (σ.spend v).Covers r vs

/-- What a variable holds is held by someone. -/
def Readable (r : Roles) (σ : Holding) (v : Var) : Prop :=
  r.counted v = false ∨ r.derived v = true ∨ 0 < σ.own v ∨ (σ.part v).isSome

/-- A variable can be assigned something to own: nothing is lost by it. -/
structure Fresh (r : Roles) (σ : Holding) (v : Var) : Prop where
  own : σ.own v = 0
  derived : r.derived v = false
  assigned : ¬r.never v

/-- Two points agree but for a variable of no account: what is owned is the
same, and the second knows no parts that the first does not. -/
def AgreeBut (r : Roles) (c : Var → Prop) (σ τ : Holding) : Prop :=
  (∀ x, ¬c x → r.counted x → τ.own x = σ.own x) ∧
    ∀ x q, τ.part x = some q → ¬c q.1 ∧ r.counted q.1 ∧ σ.part x = some q

end Holding

/-- What may be looked at after spending may be looked at before. -/
theorem readable_of_spend {roles : Roles} {σ : Holding} {u v : Var}
    (h : (σ.spend u).Readable roles v) : σ.Readable roles v := by
  rcases h with h | h | h | h
  · exact .inl h
  · exact .inr (.inl h)
  · refine .inr (.inr (.inl ?_))
    by_cases hvu : v = u
    · subst hvu
      simp only [Holding.spend, Function.update_self] at h
      omega
    · simpa [Holding.spend, hvu] using h
  · obtain ⟨q, hq⟩ := Option.isSome_iff_exists.1 h
    exact .inr (.inr (.inr (by rw [(Option.filter_eq_some_iff.1 hq).1]; rfl)))

theorem readable_of_spendAll {roles : Roles} {v : Var} : ∀ {us : List Var} {σ : Holding},
    (σ.spendAll us).Readable roles v → σ.Readable roles v := by
  intro us
  induction us with
  | nil => exact id
  | cons u us ih => exact fun h => readable_of_spend (ih h)

/-- What may be spent may be looked at. -/
theorem readable_of_covers {roles : Roles} : ∀ {vs : List Var} {σ : Holding},
    σ.Covers roles vs → ∀ v ∈ vs, σ.Readable roles v := by
  intro vs
  induction vs with
  | nil => exact fun _ v hv => nomatch hv
  | cons u vs ih =>
    rintro σ ⟨hu, hvs⟩ v hv
    rcases mem_cons.1 hv with rfl | hv
    · by_cases hc : roles.counted v = true
      · exact .inr (.inr (.inl (hu hc)))
      · exact .inl (by simpa using hc)
    · exact readable_of_spend (ih hvs v hv)

-- ======== calls

/-- The elements of a list whose places satisfy something, from some place
on. -/
def pick {α : Type} (p : Nat → Bool) : Nat → List α → List α
  | _, [] => []
  | i, a :: rest => if p i then a :: pick p (i + 1) rest else pick p (i + 1) rest

/-- The arguments from some place on that a call takes over. -/
abbrev handed {α : Type} (modes : Option (List Mode)) : Nat → List α → List α :=
  pick (Borrow.takesOver modes)

/-- The arguments from some place on that a call only borrows. -/
abbrev lent {α : Type} (modes : Option (List Mode)) : Nat → List α → List α :=
  pick fun i => !Borrow.takesOver modes i

section Pick

variable {α β : Type} {p : Nat → Bool}

theorem pick_map (f : α → β) (p : Nat → Bool) :
    ∀ (i : Nat) (xs : List α), pick p i (xs.map f) = (pick p i xs).map f := by
  intro i xs
  induction xs generalizing i with
  | nil => rfl
  | cons x xs ih =>
    rw [map_cons, pick, pick]
    split
    · rw [ih, map_cons]
    · exact ih (i + 1)

theorem pick_append (xs ys : List α) :
    ∀ i, pick p i (xs ++ ys) = pick p i xs ++ pick p (i + xs.length) ys := by
  induction xs with
  | nil => exact fun i => rfl
  | cons x xs ih =>
    intro i
    have hi : i + (x :: xs).length = i + 1 + xs.length := by
      rw [length_cons]
      omega
    rw [cons_append, pick, pick, ih (i + 1), hi]
    split
    · rfl
    · rfl

theorem mem_of_mem_pick {a : α} : ∀ {i : Nat} {xs : List α}, a ∈ pick p i xs → a ∈ xs := by
  intro i xs h
  induction xs generalizing i with
  | nil => cases h
  | cons x xs ih =>
    rw [pick] at h
    split at h
    · rcases mem_cons.1 h with rfl | h
      · exact mem_cons_self
      · exact mem_cons_of_mem x (ih h)
    · exact mem_cons_of_mem x (ih h)

theorem mem_handed_or_lent {modes : Option (List Mode)} {a : α} :
    ∀ {i : Nat} {xs : List α}, a ∈ xs → a ∈ handed modes i xs ∨ a ∈ lent modes i xs := by
  intro i xs h
  induction xs generalizing i with
  | nil => cases h
  | cons x xs ih =>
    rw [handed, lent, pick, pick]
    cases Borrow.takesOver modes i with
    | true =>
      rw [if_pos rfl, if_neg (by simp)]
      rcases mem_cons.1 h with rfl | h
      · exact .inl mem_cons_self
      · exact (ih h).imp (mem_cons_of_mem x) id
    | false =>
      rw [if_neg (by simp), if_pos (by rfl)]
      rcases mem_cons.1 h with rfl | h
      · exact .inr mem_cons_self
      · exact (ih h).imp id (mem_cons_of_mem x)

end Pick

-- ======== instructions

open Holding

/-- How an instruction changes who owns what. -/
inductive Moves (sigs : Signatures) (r : Roles) : Holding → Instr → Holding → Prop
  | stuck {σ σ' : Holding} {x : Instr} {v : Var} (hv : v ∈ x.uses) (hn : r.never v) :
      Moves sigs r σ x σ'
  | lit {σ : Holding} {dst : Var} {value : Literal} (hdst : σ.Fresh r dst) :
      Moves sigs r σ (.lit dst value) (σ.gain r dst)
  | moveAlias {σ : Holding} {dst src : Var} (hsrc : r.derived src) (hdst : r.derived dst)
      (hown : σ.own dst = 0) (hn : ¬r.never dst) :
      Moves sigs r σ (.move dst src) (σ.forget dst)
  | move {σ : Holding} {dst src : Var} (hsrc : σ.Covers r [src])
      (hdst : (σ.spendAll [src]).Fresh r dst) :
      Moves sigs r σ (.move dst src) ((σ.spendAll [src]).gain r dst)
  | prim {σ : Holding} {dst : Var} {op : Op} {args : List Var}
      (hargs : ∀ a ∈ args, σ.Readable r a) (hdst : σ.Fresh r dst) :
      Moves sigs r σ (.prim dst op args) (σ.gain r dst)
  | call {σ : Holding} {dst : Var} {func : String} {args : List Var} {tail : Bool}
      (hargs : σ.Covers r (handed (sigs.find? func) 0 args))
      (hlent : ∀ a ∈ lent (sigs.find? func) 0 args,
        (σ.spendAll (handed (sigs.find? func) 0 args)).Readable r a)
      (hdst : (σ.spendAll (handed (sigs.find? func) 0 args)).Fresh r dst) :
      Moves sigs r σ (.call dst func args tail)
        ((σ.spendAll (handed (sigs.find? func) 0 args)).gain r dst)
  | callClosure {σ : Holding} {dst callee : Var} {args : List Var}
      (hargs : σ.Covers r args) (hcallee : (σ.spendAll args).Readable r callee)
      (hdst : (σ.spendAll args).Fresh r dst) :
      Moves sigs r σ (.callClosure dst callee args) ((σ.spendAll args).gain r dst)
  | closure {σ : Holding} {dst : Var} {func : String} {args : List Var}
      (hargs : σ.Covers r args) (hdst : (σ.spendAll args).Fresh r dst) :
      Moves sigs r σ (.closure dst func args) ((σ.spendAll args).gain r dst)
  | construct {σ : Holding} {dst : Var} {t : TypeId} {variant : Int} {args : List Var}
      (hargs : σ.Covers r args) (hdst : (σ.spendAll args).Fresh r dst) :
      Moves sigs r σ (.construct dst t variant args) ((σ.spendAll args).gain r dst)
  | project {σ : Holding} {dst src : Var} {variant field : Int}
      (hsrc : r.counted src ∧ 0 < σ.own src) (hdst : σ.Fresh r dst) (hne : dst ≠ src) :
      Moves sigs r σ (.project dst src variant field) (σ.view dst src field.toNat)
  | projectAlias {σ : Holding} {dst src : Var} {variant field : Int}
      (hsrc : r.derived src) (hdst : r.derived dst) (hown : σ.own dst = 0)
      (hn : ¬r.never dst) :
      Moves sigs r σ (.project dst src variant field) (σ.forget dst)
  | projectBare {σ : Holding} {dst src : Var} {variant field : Int}
      (hsrc : r.counted src = false) (hdst : σ.Fresh r dst) :
      Moves sigs r σ (.project dst src variant field) (σ.gain r dst)
  | tag {σ : Holding} {dst src : Var} (hsrc : σ.Readable r src) (hdst : σ.Fresh r dst) :
      Moves sigs r σ (.tag dst src) (σ.gain r dst)
  | inc {σ : Holding} {v : Var} (hv : σ.Readable r v) : Moves sigs r σ (.inc v) (σ.add v)
  | dec {σ : Holding} {v : Var} (hv : σ.Covers r [v]) :
      Moves sigs r σ (.dec v) (σ.spendAll [v])

-- ======== terminators

/-- A plan for a function: who owns what at the start of each block that is
reached, its parameters assigned. -/
abbrev Plan := BlockId → Option Holding

/-- A place that an edge leads to expects what it finds, but for a variable of
no account. -/
def Expects (r : Roles) (S : Plan) (c : Var → Prop) (σ : Holding) (t : Target) : Prop :=
  ∀ b, t = some b → ∃ τ, S b = some τ ∧ σ.AgreeBut r c τ

/-- How a block may be left. What is looked at by a branch or a switch is a
number, so that what it owns is of no account. -/
inductive Leaves (r : Roles) (S : Plan) (f : Func) : Holding → Term → Prop
  | ret {σ : Holding} {v : Var}
      (hv : ∀ x, r.counted x → σ.own x = if x = v then 1 else 0) :
      Leaves r S f σ (.ret v)
  | jump {σ : Holding} {t : Target} {args : List Var} (hargs : σ.Covers r args)
      (ht : ∀ b block, t = some b → f.block? b = some block →
        block.params.length = args.length ∧ block.params.Nodup ∧
        (∀ p ∈ block.params, (σ.spendAll args).Fresh r p) ∧
        Expects r S (fun _ => False) ((σ.spendAll args).gainAll r block.params) t) :
      Leaves r S f σ (.jump t args)
  | branch {σ : Holding} {c : Var} {a b : Target} (hc : σ.Readable r c)
      (ha : Expects r S (· = c) σ a)
      (hb : Expects r S (· = c) σ b) : Leaves r S f σ (.branch c a b)
  | switch {σ : Holding} {v : Var} {cases : List Case} {default : Target}
      (hv : σ.Readable r v)
      (ht : ∀ t ∈ (Term.switch v cases default).targets, Expects r S (· = v) σ t) :
      Leaves r S f σ (.switch v cases default)
  | unreachable {σ : Holding} : Leaves r S f σ .unreachable

/-- A plan can be followed through code to a terminator. -/
def Ahead (sigs : Signatures) (r : Roles) (S : Plan) (f : Func) (term : Option Term) :
    List Instr → Holding → Prop
  | [], σ => ∀ t, term = some t → Leaves r S f σ t
  | x :: rest, σ => ∃ σ', Moves sigs r σ x σ' ∧ Ahead sigs r S f term rest σ'

-- ======== functions

/-- At the start of a function its parameters own what they hold, or are
borrowed. -/
structure Starts (r : Roles) (f : Func) (σ : Holding) : Prop where
  nodup : (f.params.map (·.var)).Nodup
  assigned : ∀ p ∈ f.params, ¬r.never p.var
  owned : ∀ p ∈ f.params, p.mode ≠ .borrowed →
    r.derived p.var = false ∧ (r.counted p.var → σ.own p.var = 1)
  borrowed : ∀ p ∈ f.params, p.mode = .borrowed →
    r.derived p.var = true ∧ σ.own p.var = 0
  part : ∀ x, σ.part x = none

/-- A plan fits a function. -/
structure Follows (sigs : Signatures) (r : Roles) (S : Plan) (f : Func) : Prop where
  entry : ∃ σ, S f.entry = some σ ∧ Starts r f σ
  block : ∀ b block σ, f.block? b = some block → S b = some σ →
    Ahead sigs r S f block.term block.code σ

end RefCount.Ownership
