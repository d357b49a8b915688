/-
Releases on edges. Every edge of the function with counts releases exactly the
variables that are live at its start and not at its end: either at the start of
the block that it leads to, or in a block of its own on the way there.

The edges of a block are described by where they lead instead (`route`), and
the starts of blocks by what stands there before their code (`front`); both are
found target by target (`Routing`).
-/
import Mathlib
import RefCount.Count.Insert
import RefCount.Proofs.BitSet
import RefCount.Proofs.Ir.Check

namespace RefCount

open List Option Array Function

namespace Ir

variable {t : Term} {m m' : BlockId → BlockId}

/-- A terminator whose edges lead elsewhere. -/
def Term.reroute (m : BlockId → BlockId) : Term → Term
  | ret v => ret v
  | jump b args => jump (b.map m) args
  | branch c a b => branch c (a.map m) (b.map m)
  | switch v cs d => switch v (cs.map fun c => { c with target := c.target.map m }) (d.map m)
  | unreachable => unreachable

theorem Term.reroute_eq_self (h : ∀ b, m b = b) : t.reroute m = t := by
  have hm : m = id := funext h
  subst hm
  cases t with
  | switch v cs d => simp [reroute]
  | _ => simp [reroute]

/-- Turning the edges that lead to one place. -/
theorem Term.retarget_reroute {a b : BlockId} : (t.reroute m).retarget (some a) (some b) =
      t.reroute fun c => if m c = a then b else m c := by
  have hturn : ∀ o : Target, retarget.turn (some a) (some b) (o.map m) =
      o.map fun c => if m c = a then b else m c := by
    intro o
    unfold retarget.turn
    cases o with
    | none => rfl
    | some c =>
      simp only [map_some, some.injEq]
      split
      · rfl
      · rfl
  cases t with
  | ret v => rfl
  | jump o args => simp [reroute, retarget, hturn]
  | branch c x y => simp [reroute, retarget, hturn]
  | switch v cs d => simp [reroute, retarget, hturn, comp_def]
  | unreachable => rfl

theorem Term.reroute_uses : (t.reroute m).uses = t.uses := by
  cases t with
  | _ => rfl

/-- Where a terminator leads after rerouting. -/
theorem Term.mem_successors_reroute {b : BlockId} :
    b ∈ (t.reroute m).successors ↔ ∃ c ∈ t.successors, m c = b := by
  have htargets : (t.reroute m).targets = t.targets.map (Option.map m) := by
    cases t with
    | switch v cs d => simp [reroute, targets, comp_def]
    | _ => rfl
  unfold successors
  rw [List.mem_eraseDups, htargets, List.mem_filterMap]
  simp only [List.mem_map, List.mem_eraseDups, List.mem_filterMap, id]
  constructor
  · rintro ⟨o, ⟨o', ho', rfl⟩, ho⟩
    obtain ⟨c, hc, hm⟩ := map_eq_some_iff.1 ho
    exact ⟨c, ⟨o', ho', hc⟩, hm⟩
  · rintro ⟨c, ⟨o, ho, hc⟩, hm⟩
    exact ⟨o.map m, ⟨o, ho, rfl⟩, by rw [hc, map_some, hm]⟩

/-- A block whose edges lead elsewhere. -/
def Block.reroute (m : BlockId → BlockId) (b : Block) : Block :=
  { b with term := b.term.map (Term.reroute m) }

theorem Block.mem_successors_reroute {b : Block} {s : BlockId} :
    s ∈ (b.reroute m).successors ↔ ∃ c ∈ b.successors, m c = s := by
  unfold successors reroute
  cases b.term with
  | none => simp
  | some t => simpa using Term.mem_successors_reroute

theorem Block.termUses_reroute (b : Block) : (b.reroute m).termUses = b.termUses := by
  unfold termUses reroute
  cases b.term with
  | none => rfl
  | some t => exact Term.reroute_uses

/-- An edge fits elsewhere if the places take the same. -/
theorem EdgeFits.reroute {b target target' : Block} (h : EdgeFits b target)
    (hlength : target'.params.length = target.params.length) : EdgeFits (b.reroute m) target' := by
  have hempty : target.params = [] → target'.params = [] := by
    intro hnil
    rw [hnil, length_nil] at hlength
    exact length_eq_zero_iff.1 hlength
  unfold EdgeFits Block.reroute at *
  cases hterm : b.term with
  | none =>
    rw [hterm] at h
    exact hempty h
  | some term =>
    rw [hterm] at h
    cases term with
    | jump _ args => exact h.trans hlength.symm
    | _ => exact hempty h

end Ir

namespace Count

open Ir

variable {f g : Func} {l : Liveness} {b t T : BlockId}

-- ======== steps

/-- New variables have the next numbers. -/
theorem newVars_eq (f : Func) (ts : List TypeId) :
    newVars f ts = (List.range' f.types.size ts.length,
      { f with types := f.types ++ ts.toArray }) := by
  have hfold : ∀ (ts : List TypeId) (vs : List Var) (f : Func),
      ts.foldl (fun (x : List Var × Func) t => (x.1 ++ [x.2.types.size],
        { x.2 with types := x.2.types.push t })) (vs, f) =
      (vs ++ List.range' f.types.size ts.length, { f with types := f.types ++ ts.toArray }) := by
    intro ts
    induction ts with
    | nil => intro vs f; simp
    | cons t ts ih =>
      intro vs f
      rw [foldl_cons, ih]
      simp [List.range'_succ, List.append_assoc]
  have h := hfold ts [] f
  rw [nil_append] at h
  exact h

/-- The variables to release on an edge. -/
def gap (l : Liveness) (b t : BlockId) : List Var :=
  ((l.outs.getD b .empty).diff (l.ins.getD t .empty)).toList

/-- What is live at the end of a block, but not in the next. -/
theorem mem_gap {v : Var} : v ∈ gap l b t ↔ (l.outs.getD b .empty).contains v = true ∧
    ¬(l.ins.getD t .empty).contains v = true := by
  rw [gap, BitSet.mem_toList, BitSet.contains_diff, Bool.and_eq_true, Bool.not_eq_true',
    Bool.not_eq_true]

/-- The block that is put on an edge. -/
def hopBlock (T target : BlockId) (args gap : List Var) : Block :=
  ⟨T, args, gap.map .dec, some (.jump (some target) args)⟩

/-- An edge is split by a block of its own. -/
theorem splitEdge_eq (target : BlockId) (e : Edge) {params : List Var}
    (hparams : ((f.block? target).map (·.params)).getD [] = params) :
    splitEdge target f e = { f with
      types := f.types ++ (params.map f.typeOf).toArray
      blocks := (f.blocks.push (hopBlock f.blocks.size target
        (List.range' f.types.size params.length) e.gap)).modify e.source
          fun s => { s with term := s.term.map (·.retarget (some target) (some f.blocks.size)) } }
    := by
  subst hparams
  unfold splitEdge
  simp only [Func.newBlock, newVars_eq, Func.modifyBlock, length_map]
  congr 2
  refine ext_getElem? fun i => ?_
  simp only [Array.getElem?_modify, Array.getElem?_push]
  by_cases hi : f.blocks.size = i
  · subst hi
    simp [hopBlock]
  · simp [hi, Ne.symm hi]

theorem filterMap_def_dec (vs : List Var) : (vs.map Instr.dec).filterMap Instr.def? = [] := by
  rw [List.filterMap_map, List.filterMap_eq_nil_iff]
  exact fun _ _ => rfl

-- ======== routing

/-- A block on an edge, which releases what the edge has to and goes on where
it led. -/
structure Hop (f : Func) (l : Liveness) (g : Func) (b t T : BlockId) (args : List Var) :
    Prop where
  edge : t ∈ f.successors b
  needed : gap l b t ≠ []
  new : f.blocks.size ≤ T
  block : g.block? T = some (hopBlock T t args (gap l b t))
  length : ∀ target, f.block? t = some target → args.length = target.params.length
  types : ∀ target, f.block? t = some target → args.map g.typeOf = target.params.map f.typeOf
  bound : ∀ a ∈ args, f.types.size ≤ a ∧ a < g.types.size

/-- A function whose edges lead elsewhere, and whose blocks have something in
front of their code. -/
structure Routing (f : Func) (l : Liveness) (route : BlockId → BlockId → BlockId)
    (front : BlockId → List Instr) (g : Func) : Prop where
  name : g.name = f.name
  params : g.params = f.params
  result : g.result = f.result
  entry : g.entry = f.entry
  types : ∃ more : List TypeId, g.types = f.types ++ more.toArray
  defs : ∃ fresh : List Var, g.defs = f.defs ++ fresh ∧ fresh.Nodup ∧
    ∀ v ∈ fresh, f.types.size ≤ v ∧ v < g.types.size
  size : f.blocks.size ≤ g.blocks.size
  old : ∀ b block, f.block? b = some block →
    g.block? b = some { block.reroute (route b) with code := front b ++ block.code }
  hop : ∀ b t, route b t ≠ t → ∃ args, Hop f l g b t (route b t) args
  new : ∀ T, f.blocks.size ≤ T → T < g.blocks.size → ∃ b t, t ∈ f.successors b ∧ route b t = T

/-- At first all edges are as they were. -/
theorem routing_start (f : Func) (l : Liveness) : Routing f l (fun _ t => t) (fun _ => []) f where
  name := rfl
  params := rfl
  result := rfl
  entry := rfl
  types := ⟨[], by simp⟩
  defs := ⟨[], by simp, nodup_nil, fun v hv => nomatch hv⟩
  size := le_rfl
  old b block hb := by
    have hterm : block.term.map (Term.reroute fun t => t) = block.term := by
      cases block.term with
      | none => rfl
      | some t => exact congrArg some (Term.reroute_eq_self fun _ => rfl)
    rw [hb, Block.reroute, hterm, nil_append]
  hop b t h := absurd rfl h
  new T h h' := absurd h' (not_lt.2 h)

namespace Routing

variable {route : BlockId → BlockId → BlockId} {front : BlockId → List Instr}

theorem typeOf_eq (h : Routing f l route front g) {v : Var} (hv : v < f.types.size) :
    g.typeOf v = f.typeOf v := by
  obtain ⟨more, hmore⟩ := h.types
  unfold Func.typeOf Func.type?
  rw [hmore, Array.getElem?_append_left hv]

/-- Only to a block on the edge does an edge lead elsewhere. -/
theorem route_eq (h : Routing f l route front g) (hlt : route b t < f.blocks.size) :
    route b t = t := by
  by_contra hne
  obtain ⟨args, hhop⟩ := h.hop b t hne
  exact absurd hhop.new (not_le.2 hlt)

/-- Putting a block on an edge. -/
theorem split (hf : WellFormed f) (h : Routing f l route front g) (ht : t ∈ f.successors b)
    (hgap : gap l b t ≠ []) (hroute : route b t = t) :
    Routing f l (update route b (update (route b) t g.blocks.size)) front
      (splitEdge t g ⟨b, gap l b t⟩) := by
  have htlt : t < f.blocks.size := hf.lt_of_successor ht
  obtain ⟨target, htarget⟩ : ∃ target, f.block? t = some target :=
    ⟨_, Array.getElem?_eq_getElem htlt⟩
  obtain ⟨block, hblock, -⟩ := Func.exists_of_successor ht
  have hb : b < f.blocks.size := Func.block_lt hblock
  have hparams : ((g.block? t).map (·.params)).getD [] = target.params := by
    rw [h.old t target htarget]
    rfl
  set T := g.blocks.size with hT
  set args := List.range' g.types.size target.params.length with hargs
  rw [splitEdge_eq t ⟨b, gap l b t⟩ hparams]
  -- which blocks there are now
  have hblocks : ∀ i, ((g.blocks.push (hopBlock T t args (gap l b t))).modify b fun s =>
      { s with term := s.term.map (·.retarget (some t) (some T)) })[i]? =
      if i = T then some (hopBlock T t args (gap l b t))
      else if i = b then (g.block? b).map fun s =>
        { s with term := s.term.map (·.retarget (some t) (some T)) }
      else g.block? i := by
    intro i
    have hbT : b ≠ T := (hb.trans_le h.size).ne
    rw [Array.getElem?_modify, Array.getElem?_push]
    by_cases hi : i = T
    · rw [if_neg (by rw [hi]; exact hbT), if_pos hi, if_pos hi]
    · rw [if_neg hi, if_neg hi]
      by_cases hib : i = b
      · subst hib
        rw [if_pos rfl, if_pos rfl]
        rfl
      · rw [if_neg (Ne.symm hib), if_neg hib]
        rfl
  obtain ⟨more, hmore⟩ := h.types
  obtain ⟨fresh, hfresh, hnd, hbound⟩ := h.defs
  have hle : f.types.size ≤ g.types.size := by
    rw [hmore, size_append]
    exact Nat.le_add_right _ _
  have hnew : ∀ a ∈ args, f.types.size ≤ a ∧
      g.types.size ≤ a ∧ a < g.types.size + target.params.length := by
    intro a ha
    have := mem_range'_1.1 ha
    exact ⟨hle.trans this.1, this⟩
  have hsize : (g.types ++ (target.params.map g.typeOf).toArray).size =
      g.types.size + target.params.length := by simp
  have hkeepType : ∀ a, a < g.types.size →
      Func.typeOf { g with
        types := g.types ++ (target.params.map g.typeOf).toArray
        blocks := (g.blocks.push (hopBlock T t args (gap l b t))).modify b fun s =>
          { s with term := s.term.map (·.retarget (some t) (some T)) } } a = g.typeOf a := by
    intro a ha
    unfold Func.typeOf Func.type?
    dsimp only
    rw [Array.getElem?_append_left ha]
  refine ⟨h.name, h.params, h.result, h.entry, ⟨more ++ target.params.map g.typeOf, ?_⟩,
    ⟨fresh ++ args, ?_, ?_, fun v hv => ?_⟩, ?_, fun c cblock hc => ?_, fun c d hne => ?_,
    fun S hS hS' => ?_⟩
  · dsimp only
    rw [hmore, ← List.append_toArray, Array.append_assoc]
  · rw [Func.defs, Func.flatMap_modify (by intro a; rfl), Array.toList_push, List.flatMap_append,
      ← List.append_assoc]
    dsimp only
    have hsingle : [hopBlock T t args (gap l b t)].flatMap Block.defs = args := by
      rw [List.flatMap_singleton, Block.defs, hopBlock, filterMap_def_dec, List.append_nil]
    rw [hsingle, ← Func.defs, hfresh, List.append_assoc]
  · refine nodup_append.2 ⟨hnd, nodup_range', fun a ha c hc hac => ?_⟩
    exact absurd (hac ▸ (hbound a ha).2) (not_lt.2 (hnew c hc).2.1)
  · rw [hsize]
    rcases List.mem_append.1 hv with hv | hv
    · exact ⟨(hbound v hv).1, (hbound v hv).2.trans_le (Nat.le_add_right _ _)⟩
    · exact ⟨(hnew v hv).1, (hnew v hv).2.2⟩
  · dsimp only
    rw [size_modify, size_push]
    exact h.size.trans (Nat.le_succ _)
  · have hcT : c ≠ T := ((Array.getElem?_eq_some_iff.1 hc).1.trans_le h.size).ne
    unfold Func.block?
    dsimp only
    rw [hblocks, if_neg hcT]
    by_cases hcb : c = b
    · subst hcb
      rw [hblock] at hc
      cases hc
      have hfun : (fun d => if route c d = t then T else route c d) =
          update (route c) t T := by
        funext d
        by_cases hd : d = t
        · subst hd
          rw [if_pos hroute, update_self]
        · have hne : route c d ≠ t := by
            intro heq
            exact hd ((h.route_eq (heq ▸ htlt)).symm.trans heq)
          rw [if_neg hne, update_of_ne hd]
      rw [if_pos rfl, h.old c block hblock, update_self, Option.map_some]
      simp only [Block.reroute, Option.map_map, comp_def, Term.retarget_reroute, hfun]
    · rw [if_neg hcb, h.old c cblock hc, update_of_ne hcb]
  · by_cases hcd : c = b ∧ d = t
    · obtain ⟨rfl, rfl⟩ := hcd
      rw [update_self, update_self]
      refine ⟨args, ht, hgap, h.size, ?_, fun target' htarget' => ?_, fun target' htarget' => ?_,
        fun a ha => ?_⟩
      · unfold Func.block?
        dsimp only
        rw [hblocks, if_pos rfl]
      · rw [htarget] at htarget'
        rw [← some.inj htarget', hargs, length_range']
      · rw [htarget] at htarget'
        cases htarget'
        have hparam : ∀ p ∈ target.params, g.typeOf p = f.typeOf p := fun p hp =>
          h.typeOf_eq (hf.bound p (Func.mem_defs_of_block htarget (mem_append_left _ hp)))
        rw [← map_congr_left hparam]
        refine ext_getElem (by simp [hargs]) fun i hi hi' => ?_
        have hi'' : i < target.params.length := by simpa using hi'
        rw [List.getElem_map, List.getElem_map, List.getElem_range']
        unfold Func.typeOf Func.type?
        dsimp only
        rw [Array.getElem?_append_right (by omega)]
        simp [hi'']
      · rw [hsize]
        exact ⟨(hnew a ha).1, (hnew a ha).2.2⟩
    · have hsame : update route b (update (route b) t T) c d = route c d := by
        by_cases hc : c = b
        · subst hc
          rw [update_self, update_of_ne fun hd => hcd ⟨rfl, hd⟩]
        · rw [update_of_ne hc]
      rw [hsame] at hne ⊢
      obtain ⟨args', hhop⟩ := h.hop c d hne
      have hlt : route c d < T := Func.block_lt hhop.block
      refine ⟨args', hhop.edge, hhop.needed, hhop.new, ?_, hhop.length, fun target' htarget' => ?_,
        fun a ha => ?_⟩
      · unfold Func.block?
        dsimp only
        rw [hblocks, if_neg hlt.ne, if_neg (hb.trans_le hhop.new).ne']
        exact hhop.block
      · rw [← hhop.types target' htarget']
        exact map_congr_left fun a ha => hkeepType a (hhop.bound a ha).2
      · rw [hsize]
        exact ⟨(hhop.bound a ha).1, (hhop.bound a ha).2.trans_le (Nat.le_add_right _ _)⟩
  · dsimp only at hS'
    rw [size_modify, size_push] at hS'
    by_cases hST : S = T
    · exact ⟨b, t, ht, by rw [update_self, update_self, hST]⟩
    · obtain ⟨c, d, hd, hroute'⟩ := h.new S hS (by omega)
      refine ⟨c, d, hd, ?_⟩
      by_cases hc : c = b
      · subst hc
        rw [update_self]
        by_cases hdt : d = t
        · -- the edge led to the block itself before
          subst hdt
          rw [hroute] at hroute'
          exact absurd (hroute' ▸ htlt) (not_lt.2 hS)
        · rwa [update_of_ne hdt]
      · rwa [update_of_ne hc]

/-- Putting blocks on edges into one block. -/
theorem splits (hf : WellFormed f) (bs : List BlockId) (hnd : bs.Nodup)
    (h : Routing f l route front g)
    (hbs : ∀ b ∈ bs, t ∈ f.successors b ∧ gap l b t ≠ [] ∧ route b t = t) :
    ∃ route', Routing f l route' front ((bs.map fun b => ⟨b, gap l b t⟩).foldl (splitEdge t) g) ∧
      (∀ b ∈ bs, route' b t ≠ t) ∧ ∀ b c, b ∉ bs ∨ c ≠ t → route' b c = route b c := by
  induction bs generalizing g route with
  | nil => exact ⟨route, h, fun b hb => absurd hb not_mem_nil, fun b c _ => rfl⟩
  | cons b bs ih =>
    obtain ⟨hb, hnd⟩ := nodup_cons.1 hnd
    obtain ⟨ht, hgap, hroute⟩ := hbs b (.head _)
    have hother : ∀ c d, c ≠ b ∨ d ≠ t →
        update route b (update (route b) t g.blocks.size) c d = route c d := by
      intro c d hcd
      by_cases hc : c = b
      · subst hc
        rw [update_self, update_of_ne (hcd.resolve_left (not_not.2 rfl))]
      · rw [update_of_ne hc]
    obtain ⟨route', hroute', hsplit, hkeep⟩ := ih hnd (h.split hf ht hgap hroute) fun c hc => by
      have hcb : c ≠ b := fun heq => hb (heq ▸ hc)
      rw [hother c t (.inl hcb)]
      exact hbs c (mem_cons_of_mem b hc)
    refine ⟨route', by rwa [map_cons, foldl_cons], fun c hc => ?_, fun c d hcd => ?_⟩
    · rcases mem_cons.1 hc with rfl | hc
      · rw [hkeep c t (.inl hb), update_self, update_self]
        exact ((hf.lt_of_successor ht).trans_le h.size).ne'
      · exact hsplit c hc
    · rw [hkeep c d (hcd.imp (fun hc hm => hc (mem_cons_of_mem b hm)) id)]
      exact hother c d (hcd.imp (fun hc heq => hc (heq ▸ (.head _))) id)

/-- Putting something in front of a block that has nothing there yet. -/
theorem prepend (h : Routing f l route front g) {code : List Instr} (ht : t < f.blocks.size)
    (hfront : front t = []) (hcode : code.filterMap Instr.def? = []) :
    Routing f l route (update front t code)
      (g.modifyBlock t fun b => { b with code := code ++ b.code }) := by
  have hdefs : (g.modifyBlock t fun b => { b with code := code ++ b.code }).defs = g.defs := by
    refine Func.defs_modifyBlock fun block => ?_
    rw [Block.defs, List.filterMap_append, hcode, List.nil_append, Block.defs]
  refine ⟨h.name, h.params, h.result, h.entry, h.types, by rw [hdefs]; exact h.defs, ?_,
    fun b block hb => ?_, fun b c hne => ?_, fun T hT hT' => h.new T hT ?_⟩
  · rw [Func.modifyBlock, size_modify]
    exact h.size
  · rw [Func.block?_modifyBlock, h.old t _ (getElem?_eq_getElem ht)]
    by_cases hbt : b = t
    · subst hbt
      have hblock := hb
      rw [Func.block?, Array.getElem?_eq_getElem ht] at hblock
      rw [if_pos rfl, update_self, hfront, some.inj hblock]
      rfl
    · rw [if_neg hbt, h.old b block hb, update_of_ne hbt]
  · obtain ⟨args, hhop⟩ := h.hop b c hne
    refine ⟨args, hhop.edge, hhop.needed, hhop.new, ?_, hhop.length, hhop.types, hhop.bound⟩
    rw [Func.block?_modifyBlock, if_neg (ht.trans_le hhop.new).ne']
    exact hhop.block
  · rwa [Func.modifyBlock, size_modify] at hT'

end Routing

-- ======== targets

/-- Every edge into a block releases what it has to: in front of the block, or
on the way. -/
def ReleasedAt (f : Func) (l : Liveness) (route : BlockId → BlockId → BlockId)
    (front : BlockId → List Instr) (t : BlockId) : Prop :=
  (f.preds t = [] → front t = []) ∧
    ∀ b, t ∈ f.successors b →
      (route b t = t ∧ front t = (gap l b t).map .dec) ∨ (route b t ≠ t ∧ front t = [])

/-- What is put in front of a block are releases. -/
theorem ReleasedAt.front_eq {route : BlockId → BlockId → BlockId} {front : BlockId → List Instr}
    (hf : WellFormed f) (h : ReleasedAt f l route front t) :
    ∃ vs : List Var, front t = vs.map .dec ∧ ∀ v ∈ vs, ∃ b, v ∈ gap l b t := by
  have hnone : ∀ v ∈ ([] : List Var), ∃ b, v ∈ gap l b t := fun v hv => absurd hv not_mem_nil
  cases hps : f.preds t with
  | nil => exact ⟨[], h.1 hps, hnone⟩
  | cons p ps =>
    have hp : t ∈ f.successors p := (Func.mem_preds_iff hf.id).1 (hps ▸ (.head _))
    rcases h.2 p hp with ⟨-, hfront⟩ | ⟨-, hfront⟩
    · exact ⟨_, hfront, fun v hv => ⟨p, hv⟩⟩
    · exact ⟨[], hfront, hnone⟩

/-- The edges into a block, by the blocks that lead there. -/
theorem edgesInto_eq (f : Func) (l : Liveness) (t : BlockId) :
    edgesInto f l t = (f.preds t).map fun b => ⟨b, gap l b t⟩ := by
  unfold edgesInto Func.preds
  induction f.blocks.toList with
  | nil => rfl
  | cons b bs ih =>
    rw [filterMap_cons, filter_cons, ih]
    by_cases h : b.leadsTo t = true
    · simp [h, gap]
    · simp [h]

theorem nodup_preds (hid : f.Keyed) (t : BlockId) : (f.preds t).Nodup := by
  have hids : f.blocks.toList.map (·.id) = List.range f.blocks.size := by
    refine ext_getElem (by simp) fun i hi hi' => ?_
    rw [List.getElem_map, List.getElem_range, Array.getElem_toList]
    exact hid i _ (getElem?_eq_getElem (by simpa using hi))
  unfold Func.preds
  refine Nodup.sublist (Sublist.map _ filter_sublist) ?_
  rw [hids]
  exact nodup_range

/-- The edges into a block are done. -/
theorem releaseInto_routing (hf : WellFormed f) {route : BlockId → BlockId → BlockId}
    {front : BlockId → List Instr} (h : Routing f l route front g) (ht : t < f.blocks.size)
    (hfront : front t = []) (hroute : ∀ b, route b t = t) :
    ∃ route' front', Routing f l route' front' (releaseInto g t (edgesInto f l t)) ∧
      ReleasedAt f l route' front' t ∧
      ∀ c, c ≠ t → front' c = front c ∧ ∀ b, route' b c = route b c := by
  rw [edgesInto_eq]
  have hpreds : ∀ b, b ∈ f.preds t ↔ t ∈ f.successors b := fun b => Func.mem_preds_iff hf.id
  cases hps : f.preds t with
  | nil =>
    refine ⟨route, front, h, ⟨fun _ => hfront, fun b hb => ?_⟩, fun c _ => ⟨rfl, fun b => rfl⟩⟩
    rw [← hpreds, hps] at hb
    cases hb
  | cons p ps =>
    have hnd := nodup_preds hf.id t
    rw [hps] at hnd
    rw [map_cons]
    unfold releaseInto
    dsimp only
    by_cases hall : ((⟨p, gap l p t⟩ : Edge) :: ps.map fun b => ⟨b, gap l b t⟩).all
        (·.gap = gap l p t) = true
    · rw [if_pos hall]
      refine ⟨route, _, h.prepend ht hfront (filterMap_def_dec _), ⟨fun hno => ?_, fun b hb => ?_⟩,
        fun c hc => ⟨update_of_ne hc _ _, fun b => rfl⟩⟩
      · rw [hps] at hno
        cases hno
      · refine .inl ⟨hroute b, ?_⟩
        rw [update_self]
        rw [← hpreds, hps] at hb
        have hgap : gap l b t = gap l p t := by
          rcases mem_cons.1 hb with rfl | hb
          · rfl
          · rw [List.all_cons, Bool.and_eq_true, List.all_eq_true] at hall
            simpa using hall.2 ⟨b, gap l b t⟩ (mem_map_of_mem hb)
        rw [hgap]
    · rw [if_neg hall]
      have hfilter : ((⟨p, gap l p t⟩ : Edge) :: ps.map fun b => ⟨b, gap l b t⟩).filter
          (!·.gap.isEmpty) =
          ((p :: ps).filter fun b => !(gap l b t).isEmpty).map fun b => ⟨b, gap l b t⟩ := by
        have hcons : (⟨p, gap l p t⟩ : Edge) :: ps.map (fun b => ⟨b, gap l b t⟩) =
            (p :: ps).map fun b => ⟨b, gap l b t⟩ := rfl
        rw [hcons, List.filter_map]
        rfl
      rw [hfilter]
      obtain ⟨route', hroute', hsplit, hkeep⟩ := h.splits (t := t) hf
        ((p :: ps).filter fun b => !(gap l b t).isEmpty) (hnd.filter _) fun b hb => by
          obtain ⟨hb, hgap⟩ := mem_filter.1 hb
          refine ⟨?_, by simpa using hgap, hroute b⟩
          rw [← hpreds, hps]
          exact hb
      refine ⟨route', front, hroute', ⟨fun _ => hfront, fun b hb => ?_⟩,
        fun c hc => ⟨rfl, fun b => hkeep b c (.inr hc)⟩⟩
      rw [← hpreds, hps] at hb
      by_cases hempty : (gap l b t).isEmpty = true
      · refine .inl ⟨?_, ?_⟩
        · rw [hkeep b t (.inl fun hm => ?_), hroute b]
          have := (mem_filter.1 hm).2
          rw [hempty] at this
          cases this
        · rw [hfront, isEmpty_iff.1 hempty]
          rfl
      · refine .inr ⟨hsplit b (mem_filter.2 ⟨hb, ?_⟩), hfront⟩
        simpa using hempty

/-- All edges are done. -/
theorem releaseEdges_routing (hf : WellFormed f) (l : Liveness) :
    ∃ route front, Routing f l route front (releaseEdges f l) ∧
      ∀ t, ReleasedAt f l route front t := by
  have hfold : ∀ (ts done : List BlockId) (g : Func) (route : BlockId → BlockId → BlockId)
      (front : BlockId → List Instr), (done ++ ts).Nodup → (∀ t ∈ ts, t < f.blocks.size) →
      Routing f l route front g → (∀ t ∈ done, ReleasedAt f l route front t) →
      (∀ t, t ∉ done → front t = [] ∧ ∀ b, route b t = t) →
      ∃ route' front', Routing f l route' front'
          ((ts.map fun b => (b, edgesInto f l b)).foldl (fun f x => releaseInto f x.1 x.2) g) ∧
        (∀ t ∈ done ++ ts, ReleasedAt f l route' front' t) ∧
        ∀ t, t ∉ done ++ ts → front' t = [] ∧ ∀ b, route' b t = t := by
    intro ts
    induction ts with
    | nil =>
      intro done g route front _ _ h hdone hrest
      exact ⟨route, front, h, by simpa using hdone, by simpa using hrest⟩
    | cons t ts ih =>
      intro done g route front hnd hlt h hdone hrest
      have ht : t ∉ done := fun hm =>
        (nodup_append.1 hnd).2.2 t hm t (.head _) rfl
      obtain ⟨route', front', h', hreleased, hkeep⟩ := releaseInto_routing hf h
        (hlt t (.head _)) (hrest t ht).1 (hrest t ht).2
      have hother : ∀ c, c ≠ t → (ReleasedAt f l route' front' c ↔
          ReleasedAt f l route front c) := by
        intro c hc
        unfold ReleasedAt
        rw [(hkeep c hc).1]
        simp only [(hkeep c hc).2]
      obtain ⟨route'', front'', h'', hreleased'', hrest''⟩ := ih (done ++ [t]) _ route' front'
        (by simpa using hnd) (fun c hc => hlt c (mem_cons_of_mem t hc)) h'
        (fun c hc => by
          rcases mem_append.1 hc with hc | hc
          · exact (hother c fun heq => ht (heq ▸ hc)).2 (hdone c hc)
          · rw [List.mem_singleton.1 hc]
            exact hreleased)
        (fun c hc => by
          rw [List.mem_append, List.mem_singleton, not_or] at hc
          rw [(hkeep c hc.2).1]
          simp only [(hkeep c hc.2).2]
          exact hrest c hc.1)
      rw [List.append_assoc, List.singleton_append] at hreleased'' hrest''
      exact ⟨route'', front'', h'', hreleased'', hrest''⟩
  obtain ⟨route, front, h, hreleased, hrest⟩ := hfold (List.range f.blocks.size) [] f _ _
    (by simpa using nodup_range) (fun t ht => mem_range.1 ht) (routing_start f l)
    (fun t ht => nomatch ht) fun t _ => ⟨rfl, fun b => rfl⟩
  refine ⟨route, front, h, fun t => ?_⟩
  by_cases ht : t < f.blocks.size
  · exact hreleased t (mem_range.2 ht)
  · -- no edge leads to what is no block
    refine ⟨fun _ => (hrest t ?_).1, fun b hb => absurd (hf.lt_of_successor hb) ht⟩
    simpa using ht

-- ======== validity

namespace Routing

variable {route : BlockId → BlockId → BlockId} {front : BlockId → List Instr} {v : Var}

/-- The blocks of the function are old or on edges. -/
theorem block_cases (hf : WellFormed f) (h : Routing f l route front g) {block' : Block}
    (hb : g.block? b = some block') : (∃ block, f.block? b = some block ∧
      block' = { block.reroute (route b) with code := front b ++ block.code }) ∨
    ∃ c t args, route c t = b ∧ Hop f l g c t b args ∧ block' = hopBlock b t args (gap l c t) := by
  by_cases hlt : b < f.blocks.size
  · left
    refine ⟨f.blocks[b], getElem?_eq_getElem hlt, ?_⟩
    have hold := h.old b _ (getElem?_eq_getElem hlt)
    rw [hb] at hold
    exact some.inj hold
  · right
    obtain ⟨c, t, ht, hroute⟩ := h.new b (not_lt.1 hlt) (Func.block_lt hb)
    have hne : route c t ≠ t := by
      intro heq
      refine hlt ?_
      rw [← hroute, heq]
      exact hf.lt_of_successor ht
    obtain ⟨args, hhop⟩ := h.hop c t hne
    rw [hroute] at hhop
    refine ⟨c, t, args, hroute, hhop, ?_⟩
    have := hhop.block
    rw [hb] at this
    exact some.inj this

theorem successors_hopBlock {T : BlockId} {args vs : List Var} :
    (hopBlock T t args vs).successors = [t] := by
  rfl

/-- Where the edges of a block lead. -/
theorem mem_successors_old {block : Block} {s : BlockId} {code : List Instr} :
    s ∈ Block.successors { block.reroute (route b) with code := code } ↔
      ∃ t ∈ block.successors, route b t = s :=
  Block.mem_successors_reroute

/-- The function with its edges split is well-formed. -/
theorem wellFormed (hf : WellFormed f) (h : Routing f l route front g) : WellFormed g where
  entry := by
    obtain ⟨block, hb⟩ := hf.entry
    exact ⟨_, by rw [h.entry, h.old _ block hb]⟩
  entryFree := by
    have hid : g.Keyed := by
      intro i b hb
      rcases h.block_cases hf hb with ⟨block, hblock, rfl⟩ | ⟨c, t, args, -, -, rfl⟩
      · exact hf.id i block hblock
      · rfl
    rw [eq_nil_iff_forall_not_mem]
    intro p hp
    rw [Func.mem_preds_iff hid, h.entry] at hp
    obtain ⟨block', hblock', hp⟩ := Func.exists_of_successor hp
    rcases h.block_cases hf hblock' with ⟨block, hblock, rfl⟩ | ⟨c, t, args, -, hhop, rfl⟩
    · obtain ⟨t, ht, hroute⟩ := mem_successors_old.1 hp
      have heq := h.route_eq (b := p) (t := t) (by rw [hroute]; exact hf.numbered.entry)
      rw [heq] at hroute
      exact hf.entry_not_successor (Func.successors_eq hblock ▸ hroute ▸ ht)
    · rw [successors_hopBlock, List.mem_singleton] at hp
      exact hf.entry_not_successor (hp ▸ hhop.edge)
  id i b hb := by
    rcases h.block_cases hf hb with ⟨block, hblock, rfl⟩ | ⟨c, t, args, -, -, rfl⟩
    · exact hf.id i block hblock
    · rfl
  nodup := by
    obtain ⟨fresh, hfresh, hnd, hbound⟩ := h.defs
    rw [hfresh]
    refine nodup_append.2 ⟨hf.nodup, hnd, fun a ha c hc hac => ?_⟩
    exact absurd (hac ▸ hf.bound a ha) (not_lt.2 (hbound c hc).1)
  bound v hv := by
    obtain ⟨fresh, hfresh, -, hbound⟩ := h.defs
    obtain ⟨more, hmore⟩ := h.types
    rw [hfresh] at hv
    rcases mem_append.1 hv with hv | hv
    · rw [hmore, size_append]
      exact (hf.bound v hv).trans_le (Nat.le_add_right _ _)
    · exact (hbound v hv).2
  term b hb := by
    obtain ⟨i, hi⟩ := mem_iff_getElem?.1 hb
    rcases h.block_cases hf hi with ⟨block, hblock, rfl⟩ | ⟨c, t, args, -, -, rfl⟩
    · have := hf.term block (mem_of_getElem? hblock)
      simpa [Block.reroute] using this
    · rfl
  edge b hb s hs := by
    obtain ⟨i, hi⟩ := mem_iff_getElem?.1 hb
    rcases h.block_cases hf hi with ⟨block, hblock, rfl⟩ | ⟨c, t, args, -, hhop, rfl⟩
    · obtain ⟨t, ht, rfl⟩ := mem_successors_old.1 hs
      obtain ⟨target, htarget, hfits⟩ := hf.edge block (mem_of_getElem? hblock) t ht
      have hfits' : ∀ target' : Block, target'.params.length = target.params.length →
          EdgeFits { block.reroute (route i) with code := front i ++ block.code } target' :=
        fun target' hlength => (hfits.reroute hlength : EdgeFits (block.reroute (route i)) target')
      by_cases hroute : route i t = t
      · rw [hroute]
        exact ⟨_, h.old t target htarget, hfits' _ rfl⟩
      · obtain ⟨args, hhop⟩ := h.hop i t hroute
        exact ⟨_, hhop.block, hfits' _ (hhop.length target htarget)⟩
    · rw [successors_hopBlock, List.mem_singleton] at hs
      subst hs
      have hlt := hf.lt_of_successor hhop.edge
      obtain ⟨target, htarget⟩ : ∃ target, f.block? s = some target := ⟨_, getElem?_eq_getElem hlt⟩
      exact ⟨_, h.old s target htarget, hhop.length target htarget⟩

theorem defs_old {block : Block} {m : BlockId → BlockId} {vs : List Var} :
    Block.defs { block.reroute m with code := vs.map .dec ++ block.code } = block.defs := by
  unfold Block.defs Block.reroute
  rw [List.filterMap_append, filterMap_def_dec, List.nil_append]

/-- Uses are supported if they were before, and what is live at the end of a
block is there. -/
theorem allSupported (hf : WellFormed f) (h : Routing f l route front g)
    (hreleased : ∀ t, ReleasedAt f l route front t) (hsupported : f.AllSupported)
    (houts : ∀ b block v, f.Reachable b → f.block? b = some block →
      (l.outs.getD b .empty).contains v = true → ¬f.Misses v b ∨ v ∈ block.defs) :
    g.AllSupported := by
  have hclaims := Func.claims_supplied f
  have hfront : ∀ t, ∃ vs : List Var, front t = vs.map .dec := fun t =>
    ((hreleased t).front_eq hf).imp fun _ => And.left
  -- what is there at the start of an old block, and at its end
  let start (b : BlockId) (v : Var) : Prop := ¬f.Misses v b ∨ Instr.dec v ∈ front b
  let stop (b : BlockId) (v : Var) : Prop :=
    start b v ∨ ∃ block, f.block? b = some block ∧ v ∈ block.defs
  have hgap : ∀ {b t v}, f.Reachable b → t ∈ f.successors b → v ∈ gap l b t → stop b v := by
    intro b t v hb ht hv
    obtain ⟨block, hblock, -⟩ := Func.exists_of_successor ht
    exact (houts b block v hb hblock (mem_gap.1 hv).1).imp .inl fun hd => ⟨block, hblock, hd⟩
  -- what is there at the start of a block is there at the end of those before
  have hedge : ∀ {b t v}, f.Reachable b → t ∈ f.successors b → start t v → stop b v := by
    intro b t v hb ht hv
    rcases hv with hv | hv
    · obtain ⟨block, hblock, ht⟩ := Func.exists_of_successor ht
      exact (hclaims.edge b block t v hb hblock ht hv).imp .inl fun hd => ⟨block, hblock, hd⟩
    · rcases (hreleased t).2 b ht with ⟨-, hfront⟩ | ⟨-, hfront⟩
      · rw [hfront] at hv
        obtain ⟨u, hu, he⟩ := mem_map.1 hv
        exact hgap hb ht (Instr.dec.inj he ▸ hu)
      · rw [hfront] at hv
        cases hv
  let R (b : BlockId) : Prop := f.Reachable b ∨
    ∃ c t, t ∈ f.successors c ∧ f.Reachable c ∧ route c t = b
  let A (b : BlockId) (v : Var) : Prop :=
    if b < f.blocks.size then start b v
    else ∀ c t, t ∈ f.successors c → f.Reachable c → route c t = b → stop c v
  have hold : ∀ {b}, R b → b < f.blocks.size → f.Reachable b := by
    rintro b (hb | ⟨c, t, ht, hc, rfl⟩) hlt
    · exact hb
    · rw [h.route_eq hlt]
      exact .edge hc ht
  have hnew : ∀ {b}, R b → ¬b < f.blocks.size →
      ∃ c t args, f.Reachable c ∧ route c t = b ∧ Hop f l g c t b args := by
    rintro b (hb | ⟨c, t, ht, hc, rfl⟩) hlt
    · exact absurd (hb.lt hf.numbered.entry fun _ _ => hf.lt_of_successor) hlt
    · obtain ⟨args, hhop⟩ := h.hop c t fun heq => hlt (by
        rw [heq]
        exact hf.lt_of_successor ht)
      exact ⟨c, t, args, hc, rfl, hhop⟩
  -- a block on an edge is on no other with another target or release
  have hsame : ∀ {c t args c' t' b}, Hop f l g c t b args → t' ∈ f.successors c' →
      route c' t' = b → t' = t ∧ gap l c' t' = gap l c t := by
    intro c t args c' t' b hhop ht' hroute
    obtain ⟨args', hhop'⟩ := h.hop c' t' fun heq => by
      have hlt := hf.lt_of_successor ht'
      rw [← heq, hroute] at hlt
      exact absurd hhop.new (not_le.2 hlt)
    rw [hroute] at hhop'
    have hblock := hhop'.block
    rw [hhop.block] at hblock
    have hblock' := some.inj hblock
    simp only [hopBlock, Block.mk.injEq, some.injEq, Term.jump.injEq] at hblock'
    obtain ⟨-, -, hcode, htarget, -⟩ := hblock'
    exact ⟨htarget.symm, (map_injective_iff.2 (fun a b he => Instr.dec.inj he) hcode).symm⟩
  refine Func.supported_of_claims (R := R) (A := A) ⟨?_, ?_, ?_, ?_⟩ ?_
  · rw [h.entry]
    exact .inl .entry
  · intro b block' s hb hblock' hs
    rcases h.block_cases hf hblock' with ⟨block, hblock, rfl⟩ | ⟨c, t, args, hroute, hhop, rfl⟩
    · have hlt := Func.block_lt hblock
      obtain ⟨t, ht, rfl⟩ := mem_successors_old.1 hs
      exact .inr ⟨b, t, Func.successors_eq hblock ▸ ht, hold hb hlt, rfl⟩
    · rw [successors_hopBlock, List.mem_singleton] at hs
      obtain ⟨c', t', args', hc', hroute', hhop'⟩ := hnew hb (not_lt.2 hhop.new)
      have ht' := (hsame hhop hhop'.edge hroute').1
      exact .inl (hs ▸ ht' ▸ .edge hc' hhop'.edge)
  · intro v hv
    rw [h.entry] at hv
    rw [h.params]
    rw [show A f.entry v = start f.entry v from if_pos hf.numbered.entry] at hv
    rcases hv with hv | hv
    · exact hclaims.start v hv
    · rw [(hreleased f.entry).1 hf.entryFree] at hv
      cases hv
  · intro b block' s v hb hblock' hs hv
    rcases h.block_cases hf hblock' with ⟨block, hblock, rfl⟩ | ⟨c, t, args, hroute, hhop, rfl⟩
    · have hlt := Func.block_lt hblock
      obtain ⟨t, ht, rfl⟩ := mem_successors_old.1 hs
      have ht' : t ∈ f.successors b := Func.successors_eq hblock ▸ ht
      have hreach := hold hb hlt
      have hstop : stop b v := by
        by_cases hnew' : route b t < f.blocks.size
        · rw [show A (route b t) v = start (route b t) v from if_pos hnew', h.route_eq hnew'] at hv
          exact hedge hreach ht' hv
        · rw [show A (route b t) v = _ from if_neg hnew'] at hv
          exact hv b t ht' hreach rfl
      rcases hstop with hstart | ⟨block', hblock', hd⟩
      · refine .inl ?_
        rwa [show A b v = start b v from if_pos hlt]
      · rw [hblock] at hblock'
        cases hblock'
        refine .inr ?_
        obtain ⟨vs, hvs⟩ := hfront b
        rwa [hvs, defs_old]
    · rw [successors_hopBlock, List.mem_singleton] at hs
      subst hs
      have hlt := hf.lt_of_successor hhop.edge
      rw [show A s v = start s v from if_pos hlt] at hv
      refine .inl ?_
      rw [show A b v = _ from if_neg (not_lt.2 hhop.new)]
      intro c' t' ht' hc' hroute'
      obtain ⟨rfl, -⟩ := hsame hhop ht' hroute'
      exact hedge hc' ht' hv
  · intro b block' hb hblock'
    rcases h.block_cases hf hblock' with ⟨block, hblock, rfl⟩ | ⟨c, t, args, hroute, hhop, rfl⟩
    · have hlt := Func.block_lt hblock
      rw [show A b = start b from funext fun v => if_pos hlt]
      have hcounts : CountsOf (fun v => start b v ∨ v ∈ block.params) (front b) := by
        intro y hy
        obtain ⟨vs, hvs⟩ := hfront b
        obtain ⟨v, -, rfl⟩ := mem_map.1 (hvs ▸ hy)
        exact ⟨v, .inl (.inr hy), .inr rfl⟩
      refine supports_counts hcounts ?_
      rw [show Block.termUses { block.reroute (route b) with code := front b ++ block.code } =
        block.termUses from block.termUses_reroute]
      exact (hsupported b block (hold hb hlt) hblock).mono fun v => Or.imp .inl id
    · have hcounts : CountsOf (fun v => A b v ∨ v ∈ args) ((gap l c t).map .dec) := by
        intro y hy
        obtain ⟨v, hv, rfl⟩ := mem_map.1 hy
        refine ⟨v, .inl ?_, .inr rfl⟩
        rw [show A b v = _ from if_neg (not_lt.2 hhop.new)]
        intro c' t' ht' hc' hroute'
        exact hgap hc' ht' ((hsame hhop ht' hroute').2 ▸ hv)
      have hrest : Supports (fun v => A b v ∨ v ∈ args) [] args := fun v hv => .inr hv
      have := supports_counts hcounts hrest
      rwa [append_nil] at this

end Routing

end Count

end RefCount
