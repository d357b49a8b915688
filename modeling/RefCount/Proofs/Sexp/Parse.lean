/-
Reading forms is exact. Trees are read back from every text that they are
written as, whatever the blanks and comments, and a text that is read holds
nothing besides what is found in it.

# Rounds

Reading goes round by round: a gap is skipped, and one token changes the lists
that are open (`Stage.read_round`). Both directions rest on that.

# Written text

By induction on a tree, from its tokens: an atom is added to the innermost open
list; a list opens, its items are added to it, and when it closes it is added
as one node (`Tree.read_tokens`).

# Layout

At every position, what has been read is laid out up to there in each open
list, and outside of them up to the first (`Stage.Fits`). A token keeps that
(`Stage.fits_of_round`), so it holds at the end, where no list is open
(`Stage.laid_of_read`).
-/
import Mathlib
import RefCount.Proofs.Sexp.Layout

namespace RefCount.Sexp

open List

variable {b : UInt8} {bs text rest gap : Bytes} {pos : Nat}

-- ======== rounds

/-- The lists that are open, and the complete forms outside of them. -/
structure Stage where
  stack : List OpenList
  outer : List Node

namespace Stage

/-- More items for the innermost open list. -/
def add (nodes : List Node) : Stage → Stage
  | ⟨[], outer⟩ => ⟨[], nodes.reverse ++ outer⟩
  | ⟨o :: below, outer⟩ => ⟨{ o with items := nodes.reverse ++ o.items } :: below, outer⟩

/-- Reads all forms from here on. -/
def read (s : Stage) (pos : Nat) (bs : Bytes) : Except Failure (List Node × Nat) :=
  readForms .all s.stack s.outer pos bs

theorem add_nil (s : Stage) : s.add [] = s := by
  rcases s with ⟨_ | ⟨o, below⟩, outer⟩ <;> rfl

theorem add_append (s : Stage) (nodes more : List Node) :
    s.add (nodes ++ more) = (s.add nodes).add more := by
  rcases s with ⟨_ | ⟨o, below⟩, outer⟩ <;> simp [add]

/-- What a token does, from its first byte on. -/
def round (s : Stage) (here : Nat) (b : UInt8) (rest : Bytes) :
    Except Failure (List Node × Nat) :=
  if b = 40 then read ⟨⟨here, []⟩ :: s.stack, s.outer⟩ (here + 1) rest
  else if b = 41 then
    match s.stack with
    | [] => .error ⟨here, .noneOf [.num, .str, .symbol]⟩
    | o :: below =>
      (add [.list ⟨o.start, here + 1⟩ o.items.reverse] ⟨below, s.outer⟩).read (here + 1) rest
  else match readAtom here (b :: rest) with
    | .error f => .error f
    | .ok (node, stop) => (s.add [node]).read stop (rest.drop (stop - here - 1))

theorem read_round (s : Stage) (h : bs.drop (Blanks.source.width bs) = b :: rest) :
    s.read pos bs = s.round (pos + Blanks.source.width bs) b rest := by
  rcases s with ⟨stack, outer⟩
  rw [read, readForms.eq_def]
  dsimp only
  split
  · next hnil => rw [h] at hnil; cases hnil
  · next hcons =>
    rw [h] at hcons
    cases hcons
    simp only [beq_iff_eq]
    rw [round]
    split_ifs
    · rfl
    · rcases stack with _ | ⟨o, _ | ⟨p, below⟩⟩ <;> rfl
    · rcases stack with _ | ⟨o, below⟩ <;> rfl

theorem read_end (s : Stage) (h : bs.drop (Blanks.source.width bs) = []) :
    s.read pos bs = match s.stack with
      | [] => .ok (s.outer.reverse, pos + Blanks.source.width bs)
      | o :: _ => .error ⟨pos + Blanks.source.width bs, .unclosedList o.start⟩ := by
  rcases s with ⟨stack, outer⟩
  rw [read, readForms.eq_def]
  dsimp only
  split
  · rcases stack with _ | ⟨o, below⟩ <;> rfl
  · next hcons => rw [h] at hcons; cases hcons

/-- Blanks and comments are passed over. -/
theorem read_gap (s : Stage) (hgap : Gap gap) (hb : b ∉ [32, 9, 13, 10, 59]) (rest : Bytes) :
    s.read pos (gap ++ b :: rest) = s.round (pos + gap.length) b rest := by
  have hwidth := width_token hgap hb rest
  rw [s.read_round (by rw [hwidth, drop_left]), hwidth]

/-- An atom is read and added. -/
theorem read_atom (s : Stage) (hgap : Gap gap) (a : Atom) (h : delimited rest = true) :
    s.read pos (gap ++ (a.text ++ rest)) =
      (s.add [a.node ⟨pos + gap.length, pos + gap.length + a.text.length⟩]).read
        (pos + gap.length + a.text.length) rest := by
  have hread := @readAtom_text rest (pos + gap.length) a h
  obtain ⟨b, tail, htext, hb⟩ := a.exists_text
  have hmem {c : UInt8} (hc : c ∈ delimiters) : b ≠ c := fun h => hb (h ▸ hc)
  rw [htext, cons_append] at hread ⊢
  rw [s.read_gap hgap fun h => hb (by
      simp only [delimiters, mem_cons, not_mem_nil] at h ⊢
      tauto),
    round, if_neg (hmem (by decide)), if_neg (hmem (by decide)), hread]
  dsimp only
  have hafter : pos + gap.length + (b :: tail).length - (pos + gap.length) - 1 = tail.length := by
    rw [length_cons]
    omega
  rw [hafter, drop_left]

end Stage

-- ======== written text

mutual

/-- A tree is read from its tokens, however they are written. -/
theorem Tree.read_tokens : ∀ (t : Tree) {after : Bool} {more : List Token} {text : Bytes},
    Written after (t.tokens ++ more) text → ∀ (s : Stage) (pos : Nat),
    ∃ node after' rest pos', node.Is t ∧ Written after' more rest ∧
      s.read pos text = (s.add [node]).read pos' rest
  | .atom a, _, _, _, h, s, pos => by
    rw [Tree.tokens, singleton_append] at h
    cases h with
    | cons hgap _ hrest => exact ⟨_, _, _, _, .atom _ a, hrest, s.read_atom hgap a hrest.delimited⟩
  | .list items, _, more, _, h, s, pos => by
    rw [Tree.tokens, cons_append, append_assoc] at h
    cases h with
    | @cons _ _ _ gap inner hgap _ hinner =>
      obtain ⟨nodes, _, _, pos', hnodes, hclose, hread⟩ := Tree.read_tokensAll items hinner
        ⟨⟨pos + gap.length, []⟩ :: s.stack, s.outer⟩ (pos + gap.length + 1)
      cases hclose with
      | @cons _ _ _ gap' rest hgap' _ hrest =>
        refine ⟨.list ⟨pos + gap.length, pos' + gap'.length + 1⟩ nodes, _, rest,
          pos' + gap'.length + 1, .list _ hnodes, hrest, ?_⟩
        have hopen : s.read pos (gap ++ (Token.opening.text ++ inner)) = _ :=
          s.read_gap hgap (by decide) inner
        rw [hopen, Stage.round, if_pos rfl, hread]
        have hshut : ((Stage.mk (⟨pos + gap.length, []⟩ :: s.stack) s.outer).add nodes).read pos'
            (gap' ++ (Token.closing.text ++ rest)) = _ :=
          Stage.read_gap _ hgap' (by decide) rest
        rw [hshut, Stage.round, if_neg (by decide), if_pos rfl]
        simp [Stage.add]

/-- Trees are read one after the other. -/
theorem Tree.read_tokensAll : ∀ (ts : List Tree) {after : Bool} {more : List Token} {text : Bytes},
    Written after (Tree.tokensAll ts ++ more) text → ∀ (s : Stage) (pos : Nat),
    ∃ nodes after' rest pos', List.Forall₂ Node.Is nodes ts ∧ Written after' more rest ∧
      s.read pos text = (s.add nodes).read pos' rest
  | [], after, _, text, h, s, pos => ⟨[], after, text, pos, .nil, h, by rw [s.add_nil]⟩
  | t :: ts, _, _, _, h, s, pos => by
    rw [Tree.tokensAll, append_assoc] at h
    obtain ⟨node, _, _, pos', hnode, hmore, hread⟩ := Tree.read_tokens t h s pos
    obtain ⟨nodes, _, _, pos'', hnodes, hrest, hread'⟩ :=
      Tree.read_tokensAll ts hmore (s.add [node]) pos'
    refine ⟨node :: nodes, _, _, pos'', .cons hnode hnodes, hrest, ?_⟩
    rw [hread, hread', ← Stage.add_append, singleton_append]

end

/-- What is written is read back. -/
theorem read_written {ts : List Tree} {after : Bool} (h : Written after (Tree.tokensAll ts) text) :
    ∃ nodes stop, Stage.read ⟨[], []⟩ 0 text = .ok (nodes, stop) ∧
      List.Forall₂ Node.Is nodes ts := by
  rw [← append_nil (Tree.tokensAll ts)] at h
  obtain ⟨nodes, _, rest, pos, hnodes, hrest, hread⟩ := Tree.read_tokensAll ts h ⟨[], []⟩ 0
  cases hrest with
  | nil hgap =>
    have hwidth : Blanks.source.width rest = rest.length := by
      have hskip := width_gap hgap []
      rwa [append_nil] at hskip
    refine ⟨nodes, pos + rest.length, ?_, hnodes⟩
    rw [hread, Stage.read_end _ (by rw [hwidth, drop_length]), hwidth]
    simp only [Stage.add, append_nil, reverse_reverse]

-- ======== layout

namespace Stage

variable {s : Stage} {stack : List OpenList} {outer : List Node}

/-- All that has been read is laid out up to a position, in every list that is
open and outside of them. -/
def Fits (text : Bytes) (outer : List Node) : List OpenList → Nat → Prop
  | [], pos => Node.Laid text 0 outer.reverse pos
  | o :: below, pos => text[o.start]? = some 40 ∧
      Node.Laid text (o.start + 1) o.items.reverse pos ∧ Fits text outer below o.start

theorem Fits.extend {next : Nat} (h : Fits text outer stack pos) (hle : pos ≤ next)
    (hgap : Gap (cut text pos next)) : Fits text outer stack next := by
  cases stack with
  | nil => exact Node.Laid.extend h hle hgap
  | cons o below => exact ⟨h.1, h.2.1.extend hle hgap, h.2.2⟩

/-- A node is added where it stands. -/
theorem Fits.add {node : Node} (h : Fits text outer stack node.span.start)
    (hnode : node.Stands text) :
    Fits text (add [node] ⟨stack, outer⟩).outer (add [node] ⟨stack, outer⟩).stack
      node.span.stop := by
  cases stack with
  | nil =>
    have hlaid : Node.Laid text 0 (outer.reverse ++ [node]) node.span.stop := Node.Laid.snoc h hnode
    simpa [Stage.add, Fits] using hlaid
  | cons o below =>
    have hlaid := h.2.1.snoc hnode
    simpa [Stage.add, Fits] using ⟨h.1, hlaid, h.2.2⟩

/-- A token is put in its place. -/
theorem fits_of_round {here : Nat} {r : List Node × Nat} (htoken : text.drop here = b :: rest)
    (hfits : Fits text s.outer s.stack here) (hround : s.round here b rest = .ok r) :
    ∃ (s' : Stage) (pos : Nat), here < pos ∧ pos ≤ text.length ∧
      Fits text s'.outer s'.stack pos ∧ s'.read pos (text.drop pos) = .ok r := by
  have hlength : here + (b :: rest).length = text.length := by
    have hlt : here < text.length := by
      by_contra hge
      rw [drop_eq_nil_of_le (by omega)] at htoken
      cases htoken
    rw [← htoken, length_drop]
    omega
  have hbyte : text[here]? = some b := by
    rw [← head?_drop, htoken]
    rfl
  have hrest : text.drop (here + 1) = rest := by
    rw [← drop_drop, htoken]
    rfl
  rw [length_cons] at hlength
  rw [round] at hround
  split_ifs at hround with hopen hclose
  · subst hopen
    refine ⟨_, here + 1, by omega, by omega, ?_, hrest.symm ▸ hround⟩
    exact ⟨hbyte, ⟨Nat.le_refl _, by rw [cut_self]; exact .nil⟩, hfits⟩
  · subst hclose
    rcases s with ⟨_ | ⟨o, below⟩, outer⟩
    · cases hround
    · obtain ⟨hstart, hlaid, hbelow⟩ := hfits
      have hnode : (Node.list ⟨o.start, here + 1⟩ o.items.reverse).Stands text :=
        ⟨hstart, hlaid, hbyte⟩
      exact ⟨_, here + 1, by omega, by omega, Fits.add hbelow hnode, hrest.symm ▸ hround⟩
  · cases hread : readAtom here (b :: rest) with
    | error f => rw [hread] at hround; cases hround
    | ok p =>
      obtain ⟨node, stop⟩ := p
      rw [hread] at hround
      obtain ⟨width, hpos, hle, rfl, hspan, hatom, htext⟩ := takes_readAtom hread
      rw [length_cons] at hle
      have hafter : text.drop (here + width) = rest.drop (here + width - here - 1) := by
        obtain ⟨k, rfl⟩ := Nat.exists_eq_add_one.2 hpos
        rw [← drop_drop, htoken, drop_succ_cons]
        congr 1
        omega
      have hnode : node.Stands text := by
        refine stands_of_atom hatom ?_
        rw [hspan]
        dsimp only
        refine ⟨by omega, by omega, ?_⟩
        rwa [cut, Nat.add_sub_cancel_left, htoken]
      have hplace := @Fits.add text s.stack s.outer node (by rwa [hspan]) hnode
      rw [hspan] at hplace
      exact ⟨_, here + width, by omega, by omega, hplace, hafter.symm ▸ hround⟩

/-- What is read stands in the text as it should. By induction along the
reading. -/
theorem laid_of_read (hended : Ended text) {nodes : List Node} {stop : Nat} (s : Stage)
    (hpos : pos ≤ text.length) (hfits : Fits text s.outer s.stack pos)
    (hread : s.read pos (text.drop pos) = .ok (nodes, stop)) :
    Node.Laid text 0 nodes text.length := by
  induction hn : text.length - pos using Nat.strongRecOn generalizing s pos with
  | ind n ih =>
    have hwidth := width_le (text.drop pos)
    rw [length_drop] at hwidth
    generalize hw : Blanks.source.width (text.drop pos) = width at hwidth
    have hgap : Gap (cut text pos (pos + width)) := by
      rw [cut, Nat.add_sub_cancel_left, ← hw]
      exact (gap_widthFrom (hended.drop pos)).1
    have hhere := hfits.extend (Nat.le_add_right pos width) hgap
    have hdrop : (text.drop pos).drop (Blanks.source.width (text.drop pos)) =
        text.drop (pos + width) := by rw [hw, drop_drop]
    cases htoken : text.drop (pos + width) with
    | nil =>
      have hend : pos + width = text.length := by
        have hle := drop_eq_nil_iff.1 htoken
        omega
      rw [s.read_end (hdrop.trans htoken)] at hread
      rcases s with ⟨_ | ⟨o, below⟩, outer⟩
      · cases hread
        rwa [hend] at hhere
      · cases hread
    | cons b rest =>
      rw [s.read_round (hdrop.trans htoken), hw] at hread
      obtain ⟨s', pos', hlt, hle, hfits', hread'⟩ := fits_of_round htoken hhere hread
      exact ih (text.length - pos') (by omega) s' hle hfits' hread' rfl

end Stage

-- ======== sources

theorem Written.line {after : Bool} {ts : List Token} (h : Written after ts text) :
    Written after ts (text ++ [10]) := by
  induction h with
  | nil hgap => exact .nil (hgap.append (.space (by decide) .nil))
  | cons hgap hapart _ ih =>
    rw [append_assoc, append_assoc]
    exact .cons hgap hapart ih

theorem Source.ended_bytes (s : Source) : Ended s.bytes := by
  induction s with
  | nil => exact .inl rfl
  | cons f s ih =>
    have hbytes : Source.bytes (f :: s) = f.text ++ [10] ++ Source.bytes s := flatMap_cons
    rcases ih with hnil | hlast
    · exact .inr (by rw [hbytes, hnil, append_nil, getLast?_concat])
    · exact .inr (by rw [hbytes, getLast?_append, hlast]; rfl)

theorem Source.parse_eq (s : Source) :
    s.parse .forms = match Stage.read ⟨[], []⟩ 0 s.bytes with
      | .ok (nodes, _) => .ok nodes
      | .error f => .error (s.place f.pos, f.error) := by
  have hall : Stage.read ⟨[], []⟩ 0 s.bytes = readForms .all [] [] 0 s.bytes := rfl
  rw [Source.parse, Grammar.read, readAll, ← hall]
  rcases Stage.read ⟨[], []⟩ 0 s.bytes with f | ⟨nodes, stop⟩ <;> rfl

/-- Trees are read from every text that they are written as. Whatever is read
stands in the text where it says, with nothing but gaps and the parentheses of
lists around it. -/
theorem Source.parse_exact :
    (∀ (s : Source) (ts : List Tree) (text : Bytes), Written false (Tree.tokensAll ts) text →
      s.bytes = text ∨ s.bytes = text ++ [10] →
      ∃ nodes, s.parse .forms = .ok nodes ∧ List.Forall₂ Node.Is nodes ts) ∧
    ∀ (s : Source) (nodes : List Node), s.parse .forms = .ok nodes →
      Node.Laid s.bytes 0 nodes s.bytes.length := by
  constructor
  · intro s ts text hwritten hbytes
    have hsource : Written false (Tree.tokensAll ts) s.bytes := by
      rcases hbytes with hbytes | hbytes <;> rw [hbytes]
      · exact hwritten
      · exact hwritten.line
    obtain ⟨nodes, stop, hread, hnodes⟩ := read_written hsource
    exact ⟨nodes, by rw [s.parse_eq, hread], hnodes⟩
  · intro s nodes hparse
    rw [s.parse_eq] at hparse
    rcases hread : Stage.read ⟨[], []⟩ 0 s.bytes with f | ⟨nodes', stop⟩
    · rw [hread] at hparse
      cases hparse
    · rw [hread] at hparse
      obtain rfl := Except.ok.inj hparse
      have hfits : Stage.Fits s.bytes [] [] 0 := ⟨Nat.le_refl 0, by rw [cut_self]; exact .nil⟩
      exact Stage.laid_of_read s.ended_bytes ⟨[], []⟩ (Nat.zero_le _) hfits hread

/-- A list of a name, a string and a number, with a comment in it. -/
theorem Source.parse_exact_comment :
    ∃ (name : Name) (nodes : List Node), name.text = "a" ∧
      Source.parse [⟨"", [40, 97, 32, 34, 98, 34, 59, 10, 45, 55, 41]⟩] .forms = .ok nodes ∧
      List.Forall₂ Node.Is nodes
        [.list [.atom (.ident name), .atom (.str [98]), .atom (.int (-7))]] ∧
      Node.Laid [40, 97, 32, 34, 98, 34, 59, 10, 45, 55, 41, 10] 0 nodes 12 := by
  have hbytes : Bytes.ofString "a" = [97] := by rfl
  have hother (r : Node × Nat) : readNumber 0 [97] ≠ .ok r := fun h => by cases h
  let name : Name := ⟨"a", by decide, by rw [hbytes]; simp [delimiters], by decide,
    by rw [hbytes]; exact hother⟩
  have hint : Token.text (.atom (.int (-7))) = [45, 55] := by rfl
  have hstr : Token.text (.atom (.str [98])) = [34, 98, 34] := by
    have hchars : Bytes.chars [98] = [.inr 'b'] := Bytes.chars_flatMap ['b']
    rw [Token.text, Atom.text, Text.ofString_quote, Text.body, hchars]
    rfl
  have hname : Token.text (.atom (.ident name)) = [97] := hbytes
  have hclosing : Written true [.closing] ([] ++ ([41] ++ [])) :=
    .cons .nil (fun _ => Bool.noConfusion) (.nil .nil)
  have hnumber : Written true [.atom (.int (-7)), .closing] ([59, 10] ++ ([45, 55] ++ [41])) :=
    hint ▸ .cons (@Gap.comment [] [] (by decide) .nil) (fun _ _ => cons_ne_nil _ _) hclosing
  have hstring : Written true [.atom (.str [98]), .atom (.int (-7)), .closing]
      ([32] ++ ([34, 98, 34] ++ [59, 10, 45, 55, 41])) :=
    hstr ▸ .cons (.space (by decide) .nil) (fun _ _ => cons_ne_nil _ _) hnumber
  have hident : Written false
      [.atom (.ident name), .atom (.str [98]), .atom (.int (-7)), .closing]
      ([] ++ ([97] ++ [32, 34, 98, 34, 59, 10, 45, 55, 41])) :=
    hname ▸ .cons .nil Bool.noConfusion hstring
  have hlist : Written false (Tree.tokensAll
      [.list [.atom (.ident name), .atom (.str [98]), .atom (.int (-7))]])
      ([] ++ ([40] ++ [97, 32, 34, 98, 34, 59, 10, 45, 55, 41])) :=
    .cons .nil Bool.noConfusion hident
  obtain ⟨nodes, hparse, hnodes⟩ := Source.parse_exact.1
    [⟨"", [40, 97, 32, 34, 98, 34, 59, 10, 45, 55, 41]⟩] _ _ hlist (.inr rfl)
  exact ⟨name, nodes, rfl, hparse, hnodes, Source.parse_exact.2 _ nodes hparse⟩

end RefCount.Sexp
