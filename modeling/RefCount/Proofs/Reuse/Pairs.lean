/-
Pairs are well-formed. In a function without resets and reuses, pairing makes
as many of them as it counts: each reset stands in front of one reuse, of a
token of its own, in the same block; the variable is boxed, of the type that is
built, and is used no more up to the reuse; and two pairs of a block are nested
or apart. All else stays. If the function is one that the check accepts, the
variant of what is reset is known, and where a call comes to the reset it is
the variant that the object has.

# The argument

Places are looked at in order. So the resets of a block stand in front of the
next place, and as a pair does not reach over a reuse, the reuse of an earlier
pair is either in front of it as well, or behind the new pair.
-/
import Mathlib
import RefCount.Proofs.Machine.Evolve
import RefCount.Proofs.Reuse.Reasons
import RefCount.Proofs.Reuse.Shown

namespace RefCount.Reuse

open Ir Machine List Option

variable {pool : Pool} {f g : Func} {b c : BlockId} {block : Block} {i k n : Nat} {x : Instr}

/-- A reset and the reuse of its token: where they stand, and what is reset. -/
structure Link where
  block : BlockId
  reset : Nat
  reuse : Nat
  token : Var
  var : Var

/-- A link is one of a function. -/
structure Link.Joins (pool : Pool) (g : Func) (l : Link) : Prop where
  order : l.reset < l.reuse
  opens : At g l.block l.reset (.reset l.token l.var)
  closes : ∃ dst type variant args,
    At g l.block l.reuse (.reuse dst l.token type variant args) ∧ g.type? l.var = some type ∧
      pool.isBoxed type = true
  unused : ∀ k x, l.reset < k → k ≤ l.reuse → At g l.block k x → l.var ∉ x.uses

/-- The links that pairing makes in a function, in order. -/
structure Linked (pool : Pool) (f g : Func) (n : Nat) (links : List Link) : Prop where
  joins : ∀ l ∈ links, l.Joins pool g
  tokens : links.map (·.token) = (range n).map (f.types.size + ·)
  resets : ∀ b i token v, At g b i (.reset token v) → ∃ l ∈ links, l.block = b ∧ l.reset = i
  reuses : ∀ b i dst token type variant args, At g b i (.reuse dst token type variant args) →
    ∃ l ∈ links, l.block = b ∧ l.reuse = i
  nested : links.Pairwise fun l l' => l.block = l'.block →
    l.reuse < l'.reset ∨ l.reset < l'.reset ∧ l'.reuse < l.reuse
  types : ∀ v < f.types.size, g.type? v = f.type? v
  size : g.blocks.size = f.blocks.size
  same : ∀ b block, f.block? b = some block → ∃ block', g.block? b = some block' ∧
    block'.id = block.id ∧ block'.params = block.params ∧ block'.term = block.term ∧
    Forall₂ Becomes block.code block'.code

/-- The variant of what a link resets is known in the function as it was, and
where a call comes to the reset with an object of its type, it is the variant
that the object has. -/
def Link.Known (pool : Pool) (f g : Func) (l : Link) : Prop :=
  ∃ block k, f.block? l.block = some block ∧ block.code[l.reset]? = some (.dec l.var) ∧
    knownVariant? pool f l.block (block.code.take l.reset) l.var = .ok (some k) ∧
    ∀ o t ts, Meets g l.block l.reset l.var o → g.type? l.var = some t →
      pool.fields t o.variant = .ok ts → Int64.ofInt k = Int64.ofInt o.variant

/-- An instruction is replaced once. -/
theorem Becomes.trans {y z : Instr} (h : Becomes x y) (h' : Becomes y z) : Becomes x z := by
  cases h with
  | same => exact h'
  | reset token v => cases h'; exact .reset token v
  | reuse r token =>
    generalize hr : r.reuse token = y at h'
    cases h' with
    | same => exact hr ▸ .reuse r token
    | reset => cases hr
    | reuse => cases hr

theorem forall₂_becomes_trans {xs ys zs : List Instr} (h : Forall₂ Becomes xs ys)
    (h' : Forall₂ Becomes ys zs) : Forall₂ Becomes xs zs := by
  induction h generalizing zs with
  | nil => exact h'
  | cons hx _ ih =>
    cases h' with
    | cons hy h' => exact .cons (hx.trans hy) (ih h')

namespace Pairing

variable {p : Pairing pool g block i}

theorem block?_here (hblock : g.block? b = some block) :
    (p.pairedFunc b).block? b = some p.pairedBlock :=
  (p.block?_pairedFunc hblock b).trans (if_pos rfl)

theorem block?_old (hblock : g.block? b = some block) (hc : c ≠ b) :
    (p.pairedFunc b).block? c = g.block? c :=
  (p.block?_pairedFunc hblock c).trans (if_neg hc)

/-- What stands at a place after pairing stood there before, or is one of the
two. -/
theorem at_cases (hblock : g.block? b = some block)
    (h : At (p.pairedFunc b) c k x) : At g c k x ∧ ¬(c = b ∧ (k = i ∨ k = p.last)) ∨
      c = b ∧ (k = i ∧ x = .reset g.types.size p.var ∨
        k = p.last ∧ x = p.rebuild.reuse g.types.size) := by
  obtain ⟨block', hblock', hx⟩ := h
  rw [p.block?_pairedFunc hblock] at hblock'
  split at hblock'
  · next hc =>
    subst hc
    cases hblock'
    have hx' : p.paired[k]? = some x := hx
    rw [p.getElem?_paired] at hx'
    split at hx'
    · next hk => exact .inr ⟨rfl, .inr ⟨hk, (some.inj hx').symm⟩⟩
    · next hlast =>
      split at hx'
      · next hk => exact .inr ⟨rfl, .inl ⟨hk, (some.inj hx').symm⟩⟩
      · next hi => exact .inl ⟨⟨block, hblock, hx'⟩, fun h => h.2.elim hi hlast⟩
  · next hne => exact .inl ⟨⟨block', hblock', hx⟩, fun h => hne h.1⟩

/-- What is neither a release nor a construction stays. -/
theorem at_of_at (hblock : g.block? b = some block) (h : At g c k x)
    (hdec : ∀ v, x ≠ .dec v) (hconstruct : ∀ r : Rebuild, x ≠ r.construct r.dst) :
    At (p.pairedFunc b) c k x := by
  obtain ⟨block', hblock', hx⟩ := h
  by_cases hc : c = b
  · subst hc
    cases hblock.symm.trans hblock'
    refine ⟨_, p.block?_here hblock, ?_⟩
    show p.paired[k]? = some x
    rw [p.getElem?_paired, if_neg, if_neg, hx]
    · rintro rfl
      exact hdec _ (some.inj (hx.symm.trans p.getElem?_dec))
    · rintro rfl
      exact hconstruct _ (some.inj (hx.symm.trans p.getElem?_last))
  · exact ⟨block', (p.block?_old hblock hc).trans hblock', hx⟩

/-- The link that a pair becomes. -/
def link (p : Pairing pool g block i) (b : BlockId) : Link := ⟨b, i, p.last, g.types.size, p.var⟩

/-- The new link is one of the function. -/
theorem joins_link (hblock : g.block? b = some block) :
    (p.link b).Joins pool (p.pairedFunc b) := by
  have hvar : p.var < g.types.size := (Array.getElem?_eq_some_iff.1 p.typed).1
  have hhere := p.block?_here hblock
  refine ⟨p.lt_last, ⟨_, hhere, p.getElem?_paired_reset⟩,
    ⟨p.rebuild.dst, p.rebuild.type, p.rebuild.variant, p.rebuild.args, ⟨_, hhere, ?_⟩, ?_, ?_⟩,
    fun k x hk hlast hx => ?_⟩
  · show p.paired[p.last]? = _
    rw [p.getElem?_paired, if_pos rfl]
    rfl
  · exact (p.type?_pairedFunc hvar).trans (p.typed.trans (congrArg some p.same.symm))
  · rw [p.same, p.boxed]
  · rcases at_cases hblock hx with ⟨⟨block', hblock', hx⟩, hno⟩ | ⟨-, ⟨hk', -⟩ | ⟨-, rfl⟩⟩
    · cases hblock.symm.trans hblock'
      have hne : k ≠ p.last := fun h => hno ⟨rfl, .inr h⟩
      exact p.unused x (p.mem_between hk (lt_of_le_of_ne hlast hne) hx)
    · exact absurd hk' hk.ne'
    · exact fun h => (mem_cons.1 h).elim (fun h => absurd h hvar.ne) p.unread

/-- The others still are: a new reset does not read what they reset. -/
theorem joins_of_joins (hblock : g.block? b = some block) {l : Link} (h : l.Joins pool g) : l.Joins pool (p.pairedFunc b) := by
  obtain ⟨dst, type, variant, args, hreuse, htype, hboxed⟩ := h.closes
  have hvar : l.var < g.types.size := (Array.getElem?_eq_some_iff.1 htype).1
  refine ⟨h.order, at_of_at hblock h.opens (by simp) (by simp [Rebuild.construct]),
    ⟨dst, type, variant, args, at_of_at hblock hreuse (by simp) (by simp [Rebuild.construct]),
      (p.type?_pairedFunc hvar).trans htype, hboxed⟩, fun k x hk hlast hx => ?_⟩
  rcases at_cases hblock hx with ⟨hx, -⟩ | ⟨hb, ⟨rfl, rfl⟩ | ⟨rfl, rfl⟩⟩
  · exact h.unused k x hk hlast hx
  · exact h.unused k (.dec p.var) hk hlast ⟨block, hb ▸ hblock, p.getElem?_dec⟩
  · have hargs := h.unused _ _ hk hlast ⟨block, hb ▸ hblock, p.getElem?_last⟩
    exact fun h => (mem_cons.1 h).elim (fun h => absurd h hvar.ne) hargs

end Pairing

/-- A link is of a place that has been looked at. -/
def Link.Before (b i : Nat) (l : Link) : Prop := l.block < b ∨ l.block = b ∧ l.reset < i

/-- One link more. -/
theorem Linked.pair {links : List Link} (h : Linked pool f g n links) (htypes : g.types.size = f.types.size + n) (hbefore : ∀ l ∈ links, l.Before b i)
    (hblock : g.block? b = some block) (p : Pairing pool g block i) :
    Linked pool f (p.pairedFunc b) (n + 1) (links ++ [p.link b]) := by
  have hnew : p.link b ∈ links ++ [p.link b] := mem_append_right _ (mem_singleton_self _)
  have hold : ∀ {P : Link → Prop}, (∃ l ∈ links, P l) → ∃ l ∈ links ++ [p.link b], P l :=
    fun ⟨l, hl, hP⟩ => ⟨l, mem_append_left _ hl, hP⟩
  refine ⟨fun l hl => ?_, ?_, fun c k token v hx => ?_,
    fun c k dst token type variant args hx => ?_,
    ?_, fun v hv => ?_, ?_, fun c block₀ hc => ?_⟩
  · rcases mem_append.1 hl with hl | hl
    · exact Pairing.joins_of_joins hblock (h.joins l hl)
    · obtain rfl := mem_singleton.1 hl
      exact Pairing.joins_link hblock
  · rw [map_append, h.tokens, range_succ, map_append]
    simp [Pairing.link, htypes]
  · rcases Pairing.at_cases hblock hx with ⟨hx, -⟩ | ⟨hc, ⟨hk, -⟩ | ⟨-, hx⟩⟩
    · exact hold (h.resets c k token v hx)
    · exact ⟨_, hnew, hc.symm, hk.symm⟩
    · cases hx
  · rcases Pairing.at_cases hblock hx with ⟨hx, -⟩ | ⟨hc, ⟨-, hx⟩ | ⟨hk, -⟩⟩
    · exact hold (h.reuses c k dst token type variant args hx)
    · cases hx
    · exact ⟨_, hnew, hc.symm, hk.symm⟩
  · refine pairwise_append.2 ⟨h.nested, pairwise_singleton _ _, fun l hl l' hl' heq => ?_⟩
    obtain rfl := mem_singleton.1 hl'
    have hb : l.block = b := heq
    have hreset : l.reset < i := (hbefore l hl).elim (fun hlt => absurd hb hlt.ne) And.right
    -- the reuse of the earlier link is not in the new pair
    obtain ⟨dst, type, variant, args, ⟨block', hblock', hx⟩, -⟩ := (h.joins l hl).closes
    rw [hb, hblock] at hblock'
    cases hblock'
    rcases lt_trichotomy l.reuse i with hlt | heq | hgt
    · exact .inl hlt
    · rw [heq, p.getElem?_dec] at hx
      cases hx
    · refine .inr ⟨hreset, ?_⟩
      show p.last < l.reuse
      by_contra hle
      rcases (not_lt.1 hle).lt_or_eq with hlt | heq
      · exact p.noReuse dst l.token type variant args (p.mem_between hgt hlt hx)
      · rw [heq, p.getElem?_last] at hx
        cases hx
  · have hlt : v < g.types.size := Nat.lt_of_lt_of_le hv (htypes ▸ Nat.le_add_right _ _)
    rw [p.type?_pairedFunc hlt, h.types v hv]
  · rw [← h.size]
    simp [Pairing.pairedFunc, Func.newVar, Func.modifyBlock]
  · obtain ⟨block₁, hc₁, hid, hparams, hterm, hcode⟩ := h.same c block₀ hc
    by_cases hcb : c = b
    · subst hcb
      cases hblock.symm.trans hc₁
      exact ⟨_, p.block?_here hblock, hid, hparams, hterm, forall₂_becomes_trans hcode p.becomes⟩
    · exact ⟨block₁, (p.block?_old hblock hcb).trans hc₁, hid, hparams, hterm, hcode⟩

/-- The evidence in the blocks is the same. -/
theorem Linked.map_evidenceOf {links : List Link} (h : Linked pool f g n links) :
    g.blocks.map evidenceOf = f.blocks.map evidenceOf := by
  refine Array.ext_getElem? fun i => ?_
  rw [Array.getElem?_map, Array.getElem?_map]
  cases hblock : f.blocks[i]? with
  | none =>
    rw [Array.getElem?_eq_none (h.size ▸ Array.getElem?_eq_none_iff.1 hblock)]
  | some block =>
    obtain ⟨block', hblock', hid, -, hterm, hcode⟩ := h.same i block hblock
    rw [show g.blocks[i]? = some block' from hblock']
    simp [evidenceOf, hid, hterm, map_evidence_of_becomes hcode]

/-- Resets were releases, and what is known of them is true in each call. -/
theorem Linked.known {links : List Link} (h : Linked pool f g n links) (hf : Valid .counted f)
    (hg : WellFormed g) (hknown : ResetsKnown pool g)
    (hplain : ∀ block ∈ f.blocks, ∀ x ∈ block.code, isPlain x = true) :
    ∀ l ∈ links, l.Known pool f g := by
  intro l hl
  obtain ⟨block', hblock', hreset⟩ := (h.joins l hl).opens
  have hlt : l.block < f.blocks.size := h.size ▸ (Array.getElem?_eq_some_iff.1 hblock').1
  obtain ⟨block, hblock⟩ : ∃ block, f.block? l.block = some block :=
    ⟨_, Array.getElem?_eq_getElem hlt⟩
  obtain ⟨block'', hsame, -, -, -, hcode⟩ := h.same _ _ hblock
  cases hblock'.symm.trans hsame
  -- the reset was a release
  obtain ⟨x, hx, hbecomes⟩ := forall₂_getElem? hcode.flip hreset
  obtain rfl : x = .dec l.var := by
    cases hbecomes with
    | same =>
      exact absurd (hplain block (Array.mem_of_getElem? hblock) _ (mem_of_getElem? hx))
        Bool.false_ne_true
    | reset => rfl
  obtain ⟨k, hk⟩ := hknown block' (Array.mem_of_getElem? hblock') _ _ _ hreset
  rw [hg.id _ _ hblock'] at hk
  have hvar := lt_of_dec hf hblock hx
  refine ⟨block, k, hblock, hx, ?_, fun o t ts ho ht hts => ho.known hg ht hts hblock' hk⟩
  rw [← hk]
  exact (knownVariant?_congr h.map_evidenceOf (h.types _ hvar) _
    (map_evidence_of_becomes (forall₂_take _ hcode)).symm).symm

/-- Where the pairing of a function stands. -/
structure Linking (pool : Pool) (f : Func) (b i : Nat) (s : Func × Nat) : Prop where
  types : s.1.types.size = f.types.size + s.2
  boxed : ResetsBoxed pool s.1
  known : ResetsKnown pool s.1
  links : ∃ links, Linked pool f s.1 s.2 links ∧ ∀ l ∈ links, l.Before b i

namespace Linking

variable {s : Func × Nat}

/-- A function without resets and reuses has no links. -/
theorem start (hplain : ∀ block ∈ f.blocks, ∀ x ∈ block.code, isPlain x = true) :
    Linking pool f 0 0 (f, 0) := by
  have hat : ∀ b i x, At f b i x → isPlain x = true := fun b i x ⟨block, hblock, hx⟩ =>
    hplain block (Array.mem_of_getElem? hblock) x (mem_of_getElem? hx)
  have hreset : ∀ block ∈ f.blocks, ∀ token v, .reset token v ∉ block.code :=
    fun block hblock token v hv => Bool.false_ne_true (hplain block hblock _ hv)
  refine ⟨rfl, fun block hblock token v hv => absurd hv (hreset block hblock token v),
    fun block hblock i token v hv => absurd (mem_of_getElem? hv) (hreset block hblock token v),
    [], ?_, fun _ h => absurd h not_mem_nil⟩
  exact ⟨fun _ h => absurd h not_mem_nil, rfl,
    fun b i token v hx => absurd (hat b i _ hx) Bool.false_ne_true,
    fun b i dst token type variant args hx => absurd (hat b i _ hx) Bool.false_ne_true,
    .nil, fun _ _ => rfl, rfl,
    fun b block hb => ⟨block, hb, rfl, rfl, rfl, forall₂_same.2 fun x _ => .same x⟩⟩

/-- A later place is looked at next. -/
theorem later {b' i' : Nat} (h : Linking pool f b i s)
    (hlater : ∀ l : Link, l.Before b i → l.Before b' i') : Linking pool f b' i' s := by
  obtain ⟨links, hlinks, hbefore⟩ := h.links
  exact { h with links := ⟨links, hlinks, fun l hl => hlater l (hbefore l hl)⟩ }

/-- A pair is made at a place. -/
theorem pair (h : Linking pool f b i s) (hblock : s.1.block? b = some block)
    (p : Pairing pool s.1 block i) : Linking pool f b (i + 1) (p.pairedFunc b, s.2 + 1) := by
  obtain ⟨links, hlinks, hbefore⟩ := h.links
  refine ⟨?_, p.resetsBoxed h.boxed hblock, p.resetsKnown h.boxed h.known hblock, _,
    hlinks.pair h.types hbefore hblock p, fun l hl => ?_⟩
  · simp [Pairing.pairedFunc, Func.newVar, Func.modifyBlock, h.types, Nat.add_assoc]
  · rcases mem_append.1 hl with hl | hl
    · exact (hbefore l hl).imp_right fun h => ⟨h.1, Nat.lt_succ_of_lt h.2⟩
    · obtain rfl := mem_singleton.1 hl
      exact .inr ⟨rfl, Nat.lt_succ_self i⟩

end Linking

/-- In a function without resets and reuses, pairing makes as many pairs as it
counts, of tokens that are new and not the same: links that are nested or
apart, and no other resets and reuses. All else stays what it was. On each
function that the check accepts, as it does all that come from insertion,
pairing has a result, and what is known of the variant of a value that is reset
is true in each call. -/
theorem annotate_linked (pool : Pool)
    (hplain : ∀ block ∈ f.blocks, ∀ x ∈ block.code, isPlain x = true) :
    (∀ g n, annotate pool f = .ok (g, n) → ∃ links, Linked pool f g n links ∧
      ∀ stage, f.check stage = .ok () → ∀ l ∈ links, l.Known pool f g) ∧
    ∀ stage, f.check stage = .ok () → ∃ g n, annotate pool f = .ok (g, n) := by
  refine ⟨fun g n hg => ?_, fun stage hcheck => ?_⟩
  · have hlinking := annotate_run (P := Linking pool f)
      (fun h _ => h.later fun l hl => hl.imp_right fun h => ⟨h.1, Nat.lt_succ_of_lt h.2⟩)
      (fun h hblock p => h.pair hblock p)
      (fun h _ => h.later fun l hl =>
        .inl (hl.elim Nat.lt_succ_of_lt fun h => h.1 ▸ Nat.lt_succ_self _))
      (.start hplain) hg
    obtain ⟨links, hlinks, -⟩ := hlinking.links
    refine ⟨links, hlinks, fun stage hcheck => ?_⟩
    have hvalid := (check_ok_iff.1 hcheck).counted
    exact hlinks.known hvalid (annotate_valid hvalid hg).toWellFormed hlinking.known hplain
  · obtain ⟨s, hs⟩ := exists_annotate pool (check_ok_iff.1 hcheck).counted
    exact ⟨s.1, s.2, hs⟩

section Choice

/-- The built-in types and a type with two variants. -/
def choicePool : Pool :=
  let fields : List Field := [⟨"x", .int⟩]
  Pool.initial.add (.enum "E" (some [⟨"A", fields⟩, ⟨"B", fields⟩]))

/-- An object of the second variant. -/
def choice : Object := ⟨7, 1, [.int 1], [], "", 8, false⟩

/-- A heap with one object, of the second variant. -/
def oneChoice : Heap where
  cells := .ofList [(0x1008, ⟨1, choice⟩)]
  next := 0x1010
  allocs := 1
  frees := 0
  bytes := 16

theorem find_oneChoice : oneChoice.find 0x1008 = .ok ⟨1, choice⟩ := by
  have hcell : oneChoice.cell? 0x1008 = some ⟨1, choice⟩ := by
    unfold Heap.cell? oneChoice
    simp [Std.HashMap.ofList_cons]
  rw [Heap.find, hcell]
  rfl

theorem object_oneChoice : oneChoice.object 0x1008 = .ok choice := by
  rw [Heap.object, find_oneChoice]
  rfl

/-- All that a variable shows of the object is its variant. -/
theorem variant_of_shows {fr : Frame} {w : World} {v : Var} {n : Int64} (hw : w.heap = oneChoice)
    (hget : fr.get v = .ref 0x1008) (h : Shows fr w v n) : n = Int64.ofInt choice.variant := by
  obtain ⟨p, o, hp, ho, rfl⟩ := h
  cases hp.symm.trans hget
  rw [hw, object_oneChoice] at ho
  cases ho
  rfl

/-- A world with the object, after some instructions. -/
def choiceWorld (instrs : Nat) : World := ⟨oneChoice, ⟨instrs, 0, 0, 0, 0, 0⟩, []⟩

/-- A value of the second variant is released, and another of its type is
built. -/
def rebuilt : Func where
  name := "rebuilt"
  params := [⟨0, .int, .owned⟩, ⟨1, 7, .owned⟩]
  result := 7
  blocks := #[⟨0, [], [.project 2 1 1 0, .dec 1, .construct 3 7 0 [2]], some (.ret 3)⟩]
  entry := 0
  types := #[.int, 7, .int, 7]

def rebuiltBlock : Block :=
  ⟨0, [], [.project 2 1 1 0, .reset 4 1, .reuse 3 4 7 0 [2]], some (.ret 3)⟩

def rebuiltPaired : Func :=
  { rebuilt with
    blocks := #[rebuiltBlock]
    types := #[.int, 7, .int, 7, .unit] }

def rebuiltFrame (code : List Instr) (x : Option Value) : Frame :=
  ⟨rebuiltPaired, rebuiltBlock, code, #[some (.int 5), some (.ref 0x1008), x, none, none]⟩

/-- A call comes to the reset with the object. -/
theorem rebuilt_meets : Meets rebuiltPaired 0 1 1 choice := by
  have hstart : (startFrame rebuiltPaired [.int 5, .ref 0x1008]).run.run (choiceWorld 0) =
      (.ok (rebuiltFrame rebuiltBlock.code none), choiceWorld 0) := rfl
  have hproject : (project (.ref 0x1008) 1 0).run.run (choiceWorld 1) =
      (.ok (.int 1), choiceWorld 1) := by
    rw [project, objectAt, run_bind, run_bind, run_cellAt,
      show (choiceWorld 1).heap.find 0x1008 = _ from find_oneChoice]
    rfl
  have hstep : (step default ⟨rebuiltFrame rebuiltBlock.code none, []⟩).run.run (choiceWorld 0) =
      (.ok (.running ⟨rebuiltFrame (rebuiltBlock.code.drop 1) (some (.int 1)), []⟩),
        choiceWorld 1) := by
    show (inContext _ ((project (.ref 0x1008) 1 0 >>= fun x => (_ : Run Config)) >>= fun c =>
      (pure (.running c) : Run Machine.Progress))).run.run (choiceWorld 1) = _
    rw [run_inContext, run_bind, run_bind, hproject]
    rfl
  refine .intro ((Watched.start hstart).step hstep .runs) rfl rfl rfl object_oneChoice
    fun n hn => ?_
  rcases hn with ⟨-, hn⟩ | hn
  · exact variant_of_shows rfl rfl hn
  · exact variant_of_shows rfl rfl hn

/-- The one pair stands behind the projection, and a call comes to its reset.
-/
theorem rebuilt_linked : rebuilt.check .counted = .ok () ∧
    (∀ block ∈ rebuilt.blocks, ∀ x ∈ block.code, isPlain x = true) ∧
    annotate choicePool rebuilt = .ok (rebuiltPaired, 1) ∧
    Meets rebuiltPaired 0 1 1 choice ∧
    ∃ l, Linked choicePool rebuilt rebuiltPaired 1 [l] ∧ l.block = 0 ∧ l.reset = 1 ∧ l.var = 1 ∧
      l.Known choicePool rebuilt rebuiltPaired := by
  have hcheck : rebuilt.check .counted = .ok () := by decide +kernel
  have hplain : ∀ block ∈ rebuilt.blocks, ∀ x ∈ block.code, isPlain x = true := by decide +kernel
  have hannotate : annotate choicePool rebuilt = .ok (rebuiltPaired, 1) := rfl
  refine ⟨hcheck, hplain, hannotate, rebuilt_meets, ?_⟩
  obtain ⟨links, hlinked, hknown⟩ := (annotate_linked choicePool hplain).1 _ _ hannotate
  obtain ⟨l, hl, hblock, hreset⟩ := hlinked.resets 0 1 4 1 ⟨rebuiltBlock, rfl, rfl⟩
  obtain ⟨l', rfl⟩ : ∃ l', links = [l'] :=
    length_eq_one_iff.1 (by simpa using congrArg length hlinked.tokens)
  obtain rfl := mem_singleton.1 hl
  obtain ⟨block, hb, hx⟩ := (hlinked.joins l hl).opens
  rw [hblock] at hb
  cases hb
  rw [hreset] at hx
  exact ⟨l, hlinked, hblock, hreset, (Instr.reset.inj (some.inj hx)).2.symm,
    hknown .counted hcheck l hl⟩

end Choice

end RefCount.Reuse
