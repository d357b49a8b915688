/-
The text of a function determines it. Two functions over a pool, with the same
types of variables, are the same if their texts are; so is a cache right to go
by texts.

# What it rests on

The pool was made by calls that name types which are there: a type that is
mentioned before it is there is written by its number at first, and later like
another one. Names are words, so no name holds a blank or a parenthesis. Doubles
are taken from a set whose members are written differently; all other literals
are read here.
-/
import Mathlib
import RefCount.Proofs.Ir.Words
import RefCount.Proofs.Outcome

namespace RefCount.Ir

open List Text

variable {p : Pool} {S : Set Float} {s t : List Char}

-- ======== blocks

namespace Block

/-- The lines of a block. -/
def lines (b : Block) : List Line := b.code.map .inl ++ [.inr b.term]

/-- The text of a block whose parameters have types. -/
def shown (p : Pool) (f : Func) (b : Block) : String :=
  blockText b.id ++ "("
    ++ ", ".intercalate (b.params.map fun v => varText v ++ " " ++ p.name (f.typeOf v)) ++ "):\n"
    ++ String.join (b.lines.map fun x => "\t" ++ x.text p ++ "\n")

/-- The types of a block's parameters are known, and its lines are legible. -/
structure Legible (p : Pool) (S : Set Float) (f : Func) (b : Block) : Prop where
  params : ∀ v ∈ b.params, (f.type? v).isSome
  code : ∀ x ∈ b.code, Line.Legible p S f.types (.inl x)

variable {f : Func} {a b : Block}

/-- The text of a legible block. -/
theorem Legible.text (h : b.Legible p S f) : b.text p f = .ok (b.shown p f) := by
  have hparams : b.params.mapM (blockParamText p f) =
      .ok (b.params.map fun v => varText v ++ " " ++ p.name (f.typeOf v)) := by
    refine mapM_ok_of_forall fun v hv => ?_
    obtain ⟨t, ht⟩ := Option.isSome_iff_exists.1 (h.params v hv)
    rw [blockParamText, Func.typeOf, ht]
    rfl
  rw [Block.text, hparams, shown, lines]
  cases hterm : b.term <;>
    simp [bind, Except.bind, Line.text, pure, Except.pure, Function.comp_def, String.append_assoc]

theorem blockText_append_inj {a b : BlockId} (hs : Stops s) (ht : Stops t)
    (h : (blockText a).toList ++ s = (blockText b).toList ++ t) : a = b ∧ s = t := by
  rw [blockText, blockText, toList_targetText, toList_targetText] at h
  obtain ⟨hab, hst⟩ := target_append_inj hs ht h
  split_ifs at hab <;> simp_all

/-- A block is known from its text: no other line starts like a block. -/
theorem shown_append_inj (hp : p.Canonical) (hw : Worded p) (hS : S.InjOn Numeral.floatText)
    (ha : a.Legible p S f) (hb : b.Legible p S f) (hs : ∀ u, s ≠ '\t' :: u)
    (ht : ∀ u, t ≠ '\t' :: u) (h : (a.shown p f).toList ++ s = (b.shown p f).toList ++ t) :
    a = b ∧ s = t := by
  simp only [shown, String.toList_append, append_assoc] at h
  obtain ⟨hid, hparams⟩ := blockText_append_inj (by simp) (by simp) h
  obtain ⟨hparams, hlines⟩ := intercalate_append_inj (F := fun _ => True)
    (fun v _ w _ s t _ _ h => by
      simp only [String.toList_append, append_assoc, toList_varText] at h
      obtain ⟨rfl, hrest⟩ := var_append_inj (by simp) (by simp) h
      exact ⟨rfl, append_cancel_left (append_cancel_left hrest)⟩)
    (fun _ _ => trivial) trivial trivial (by simp) (by simp) (by simp [varChars])
    (by simp [varChars]) (append_cancel_left hparams)
  have hlegible : ∀ {b : Block}, b.Legible p S f → ∀ x ∈ b.lines, Line.Legible p S f.types x := by
    intro b hb x hx
    rcases mem_append.1 hx with hx | hx
    · obtain ⟨y, hy, rfl⟩ := mem_map.1 hx
      exact hb.code y hy
    · rw [mem_singleton.1 hx]
      trivial
  obtain ⟨hsame, rfl⟩ := flatMap_append_inj (F := fun _ => True)
    (g := fun x : Line => ("\t" ++ x.text p ++ "\n").toList)
    (fun x hx y hy s t _ _ h => Line.append_inj hp hw hS (hlegible ha x hx) (hlegible hb y hy)
      (by simpa using h))
    (fun _ _ => trivial) trivial trivial (fun x u h => hs _ (by simpa using h.symm))
    (fun x u h => ht _ (by simpa using h.symm)) (by simpa [flatMap_map] using hlines)
  obtain ⟨hcode, hterm⟩ := append_inj' hsame rfl
  have hcode := Sum.inl_injective.list_map hcode
  cases a
  cases b
  simp_all

end Block

-- ======== functions

/-- What stands behind a parameter. -/
def Follows (s : List Char) : Prop := ∃ u, s = ',' :: ' ' :: 'v' :: u ∨ s = ')' :: u

def modeSuffix (k : Mode) : String := if k = .borrowed then " borrowed" else ""

/-- A comma behind a name could belong to it, but for the variable that comes
next. -/
theorem Follows.split (hs : Follows s) (k : Mode) : ∃ e r, (modeSuffix k).toList ++ s = e ++ r ∧
    (∀ c ∈ e, isWordChar c = true) ∧ (∀ c ∈ r.head?, isWordChar c = false) ∧
    e = if ' ' :: ['v'] <+: r then [','] else [] := by
  have hcomma : isWordChar ',' = true := rfl
  have hblank : isWordChar ' ' = false := rfl
  have hclose : isWordChar ')' = false := rfl
  cases k with
  | owned =>
    obtain ⟨u, rfl | rfl⟩ := hs
    · exact ⟨[','], ' ' :: 'v' :: u, by simp [modeSuffix], by simpa, by simpa, by simp⟩
    · exact ⟨[], ')' :: u, by simp [modeSuffix], by simp, by simpa, by simp⟩
  | borrowed =>
    exact ⟨[], " borrowed".toList ++ s, by simp [modeSuffix], by simp, by simpa, by simp⟩

/-- A parameter is known, though a comma could belong to the name of its type.
-/
theorem param_append_inj (hp : p.Canonical) (hw : Worded p) {a b : Param}
    (ha : (p.get? a.type).isSome) (hb : (p.get? b.type).isSome) (hs : Follows s) (ht : Follows t)
    (h : (a.text p).toList ++ s = (b.text p).toList ++ t) : a = b ∧ s = t := by
  obtain ⟨e, r, hsplit, he, hr, rfl⟩ := hs.split a.mode
  obtain ⟨e', r', hsplit', he', hr', rfl⟩ := ht.split b.mode
  have hend : (modeSuffix a.mode).toList ++ s = (modeSuffix b.mode).toList ++ t →
      a.mode = b.mode ∧ s = t := by
    obtain ⟨u, rfl | rfl⟩ := hs <;> obtain ⟨v, rfl | rfl⟩ := ht <;> cases a.mode <;>
      cases b.mode <;> simp [modeSuffix]
  simp only [Param.text, String.toList_append, append_assoc, toList_varText] at h
  obtain ⟨hvar, hname⟩ := var_append_inj (by simp) (by simp) h
  obtain ⟨htype, hmode⟩ := hp.name_append_inj _ a.type b.type (Nat.lt_succ_self _) ha hb
    ((modeSuffix a.mode).toList ++ s) ((modeSuffix b.mode).toList ++ t)
    (fun d d' hd hd' hn hn' h => by
      have hd := (hw _ d hd hn).2
      have hd' := (hw _ d' hd' hn').2
      rw [hsplit, hsplit', ← append_assoc, ← append_assoc] at h
      obtain ⟨hword, rfl⟩ := span_append_inj _ (by grind) (by grind) hr hr' h
      exact ⟨String.toList_inj.1 (append_cancel_right hword), by rw [hsplit, hsplit']⟩)
    (append_cancel_left hname)
  obtain ⟨hmode, hst⟩ := hend hmode
  cases a
  cases b
  simp_all

namespace Func

/-- A function over a pool, with a word for a name. -/
structure Legible (p : Pool) (S : Set Float) (f : Func) : Prop where
  name : IsWord f.name
  params : ∀ q ∈ f.params, (p.get? q.type).isSome
  result : (p.get? f.result).isSome
  blocks : ∀ b ∈ f.blocks.toList, b.Legible p S f

variable {f g : Func}

/-- The text of a legible function. -/
theorem Legible.text (h : f.Legible p S) : f.text p = .ok ("func " ++ f.name ++ "("
    ++ ", ".intercalate (f.params.map (Param.text p)) ++ ") " ++ p.name f.result ++ " entry "
    ++ blockText f.entry ++ " \x7b\n" ++ String.join (f.blocks.toList.map (Block.shown p f))
    ++ "\x7d\n") := by
  rw [Func.text, mapM_ok_of_forall fun b hb => (h.blocks b hb).text]
  rfl

/-- A legible function is known from its text: its name, parameters, result,
entry and blocks are read one after the other. -/
theorem Legible.eq_of_text (hp : p.Canonical) (hw : Worded p) (hS : S.InjOn Numeral.floatText)
    (hf : f.Legible p S) (hg : g.Legible p S) (htypes : f.types = g.types)
    (h : f.text p = g.text p) : f = g := by
  have htypeOf : g.typeOf = f.typeOf := funext fun v => by simp [typeOf, type?, htypes]
  have hshown : Block.shown p g = Block.shown p f :=
    funext fun b => by simp only [Block.shown, htypeOf]
  have hblocks : ∀ b ∈ g.blocks.toList, b.Legible p S f := fun b hb =>
    ⟨fun v hv => by simpa [type?, htypes] using (hg.blocks b hb).params v hv,
      fun x hx => by rw [htypes]; exact (hg.blocks b hb).code x hx⟩
  rw [hf.text, hg.text, hshown] at h
  have hchars := congrArg String.toList (Except.ok.inj h)
  simp only [String.toList_append, append_assoc, append_cancel_left_eq] at hchars
  obtain ⟨hname, hparams⟩ := hf.name.append_inj hg.name (by simp; rfl) (by simp; rfl) hchars
  obtain ⟨hparams, hresult⟩ := intercalate_append_inj
    (fun a ha b hb s t => param_append_inj hp hw (hf.params a ha) (hg.params b hb))
    (fun a s => by simp [Follows, Param.text, varChars]) (by simp [Follows]) (by simp [Follows])
    (by simp) (by simp) (by simp [Param.text, varChars]) (by simp [Param.text, varChars])
    (append_cancel_left hparams)
  obtain ⟨hresult, hentry⟩ := hp.reads hf.result hg.result _ _ (by simp [TypeDef.Ends])
    (by simp [TypeDef.Ends]) (append_cancel_left hresult)
  obtain ⟨hentry, hlist⟩ := Block.blockText_append_inj (by simp) (by simp)
    (append_cancel_left hentry)
  have hstart : ∀ b u, (∀ t, (Block.shown p f b).toList ++ u ≠ '\t' :: t) ∧
      (Block.shown p f b).toList ++ u ≠ "\x7d\n".toList := by
    intro b u
    simp only [Block.shown, blockText, String.toList_append, toList_targetText, append_assoc]
    split <;> simp [targetChars]
  obtain ⟨hsame, -⟩ := flatMap_append_inj (F := fun s => ∀ u, s ≠ '\t' :: u)
    (g := fun b => (Block.shown p f b).toList)
    (fun a ha b hb s t => Block.shown_append_inj hp hw hS (hf.blocks a ha) (hblocks b hb))
    (fun b s => (hstart b s).1) (by simp) (by simp) (fun b u => (hstart b u).2)
    (fun b u => (hstart b u).2) (by simpa [flatMap_map] using append_cancel_left hlist)
  cases f
  cases g
  simp_all

/-- The text of a function determines it. Over a pool made by calls with types
that are there, a function has a text, and no other function with the same
types of variables has it. Names of types and functions are words, types and
operations are known, and literals are of the types of their variables. -/
theorem text_determines (hp : Pool.Later .initial p) (hw : Worded p)
    (hS : S.InjOn Numeral.floatText) (hf : f.Legible p S) (hg : g.Legible p S)
    (htypes : f.types = g.types) : ∃ s, f.text p = .ok s ∧ (g.text p = .ok s → f = g) := by
  obtain ⟨hp, -⟩ := hp.canonical Pool.initial_canonical
  exact ⟨_, hf.text, fun h => hf.eq_of_text hp hw hS hg htypes (hf.text.trans h.symm)⟩

theorem worded_of_types (h : ∀ d ∈ p.types, d.isNamed = true → IsWord d.name) : Worded p := by
  intro i d hd hn
  unfold Pool.get? at hd
  split at hd
  · cases hd
  · exact h d (Array.mem_of_getElem? hd) hn

theorem initial_worded : ∀ d ∈ Pool.initial.types, d.isNamed = true → IsWord d.name := by
  simp [Pool.initial, Pool.builtins, TypeDef.name, Builtin.kind, Kind.text, IsWord, isWordChar,
    Char.isWhitespace]

/-- A function that ends in a call, which says so or not. -/
def caller (tail : Bool) : Func :=
  ⟨"f", [⟨0, .int, .borrowed⟩], .int,
    #[⟨0, [], [.lit 1 (.float 1.5), .call 2 "g" [0] tail], some (.ret 2)⟩], 0,
    #[.int, .float, .int]⟩

/-- Two functions that differ in a mark at a call. -/
theorem caller_texts_differ :
    ∃ s, (caller true).text .initial = .ok s ∧ (caller false).text .initial ≠ .ok s := by
  have hlegible : ∀ tail, (caller tail).Legible .initial {1.5} := by
    intro tail
    refine ⟨by simp [caller, IsWord, isWordChar, Char.isWhitespace], by simp [caller]; decide,
      rfl, ?_⟩
    simp only [caller, mem_singleton, forall_eq]
    refine ⟨by simp, ?_⟩
    simp [Line.Legible, IsWord, isWordChar, Char.isWhitespace]
    decide
  obtain ⟨s, hs, hsame⟩ := text_determines .refl (worded_of_types initial_worded)
    (Set.injOn_singleton _ _) (hlegible true) (hlegible false) rfl
  exact ⟨s, hs, fun h => by simpa [caller] using hsame h⟩

/-- A pool in which a list was asked for before its type was there. -/
def strayPool : Pool :=
  [Pool.Call.list 8, .declare "R" .record, .defineRecord 8 [], .list 8].foldl
    (fun p c => c.after p) .initial

/-- A function that gives back nothing, of a type. -/
def giver (t : TypeId) : Func := ⟨"f", [], t, #[⟨0, [], [], some .unreachable⟩], 0, #[]⟩

theorem strayPool_types : strayPool.types =
    Pool.initial.types ++ #[.list 8, .record "R" (some []), .list 8] := by
  decide +kernel

/-- Types 7 and 9 of this pool are written alike. -/
theorem givers_alike : Worded strayPool ∧ (∀ t ∈ [(7 : TypeId), 9], (giver t).Legible strayPool ∅) ∧
    (giver 7).types = (giver 9).types ∧ (giver 7).text strayPool = (giver 9).text strayPool ∧
    giver 7 ≠ giver 9 := by
  have hget : strayPool.get? 7 = some (.list 8) ∧ strayPool.get? 9 = some (.list 8) := by
    unfold Pool.get?
    rw [strayPool_types]
    exact ⟨rfl, rfl⟩
  have hlegible : ∀ t, (strayPool.get? t).isSome = true → (giver t).Legible strayPool ∅ := by
    intro t ht
    refine ⟨by simp [giver, IsWord, isWordChar, Char.isWhitespace], by simp [giver], ht, ?_⟩
    simp only [giver, mem_singleton, forall_eq]
    exact ⟨by simp, by simp⟩
  have hname : strayPool.name 7 = strayPool.name 9 := by
    rw [Pool.name, Pool.name, Pool.nameWithin_succ hget.1, Pool.nameWithin_succ hget.2]
  refine ⟨worded_of_types ?_, by simp [hlegible, hget], rfl, ?_, by simp [giver]⟩
  · rw [strayPool_types]
    simp only [Array.mem_append, or_imp, forall_and]
    refine ⟨initial_worded, ?_⟩
    simp [TypeDef.isNamed, TypeDef.name, IsWord, isWordChar, Char.isWhitespace]
  · rw [(hlegible 7 (by rw [hget.1]; rfl)).text, (hlegible 9 (by rw [hget.2]; rfl)).text]
    simp [giver, hname, Block.shown]

end Func

end RefCount.Ir
