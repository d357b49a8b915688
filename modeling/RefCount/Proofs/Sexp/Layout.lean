/-
Where nodes stand in a text. Nodes are laid out between two positions if they
come one after the other, with only gaps before, between and behind them; a
list stands in its place if it begins and ends with parentheses and its items
are laid out between them. This file has what one token does: a gap is skipped
to its end, and an atom takes just the bytes that its span tells.
-/
import Mathlib
import RefCount.Sexp.Source
import RefCount.Proofs.Sexp.Written

namespace RefCount.Sexp

open Numeral (decimalDigit?)
open List

-- ======== layout

/-- The bytes from one position up to another. -/
def cut (text : Bytes) (start stop : Nat) : Bytes := (text.drop start).take (stop - start)

/-- Bytes without delimiters. -/
def Plain (bs : Bytes) : Prop := ∀ b ∈ bs, b ∉ delimiters

/-- The text of an atom: in quotes, or without delimiters. -/
def IsAtomText (bs : Bytes) : Prop := (∃ inner, bs = 34 :: (inner ++ [34])) ∨ bs ≠ [] ∧ Plain bs

mutual

/-- A node stands in a text where it says, with all that is in it. -/
def Node.Stands (text : Bytes) : Node → Prop
  | .list span items => text[span.start]? = some 40 ∧
      Node.Laid text (span.start + 1) items (span.stop - 1) ∧ text[span.stop - 1]? = some 41
  | node => node.span.start < node.span.stop ∧ node.span.stop ≤ text.length ∧
      IsAtomText (cut text node.span.start node.span.stop)

/-- Nodes stand one after the other between two positions, and nothing else
does but gaps. -/
def Node.Laid (text : Bytes) (start : Nat) : List Node → Nat → Prop
  | [], stop => start ≤ stop ∧ Gap (cut text start stop)
  | node :: nodes, stop => start ≤ node.span.start ∧ Gap (cut text start node.span.start) ∧
      node.Stands text ∧ Node.Laid text node.span.stop nodes stop

end

variable {b : UInt8} {bs text rest : Bytes} {pos start stop next : Nat} {node : Node}
  {nodes : List Node}

theorem cut_self (text : Bytes) (pos : Nat) : cut text pos pos = [] := by
  rw [cut, Nat.sub_self, take_zero]

theorem cut_append (hle : start ≤ stop) (hle' : stop ≤ next) :
    cut text start stop ++ cut text stop next = cut text start next := by
  unfold cut
  have hsplit : next - start = (stop - start) + (next - stop) := by omega
  have hdrop : text.drop stop = (text.drop start).drop (stop - start) := by
    rw [drop_drop, Nat.add_sub_cancel' hle]
  rw [hsplit, take_add, hdrop]

/-- An atom stands where its text is. -/
theorem stands_of_atom (hatom : ∀ span items, node ≠ .list span items)
    (h : node.span.start < node.span.stop ∧ node.span.stop ≤ text.length ∧
      IsAtomText (cut text node.span.start node.span.stop)) : node.Stands text := by
  cases node with
  | list span items => exact absurd rfl (hatom span items)
  | _ => exact h

/-- A gap more. -/
theorem Node.Laid.extend (h : Node.Laid text start nodes stop) (hle : stop ≤ next)
    (hgap : Gap (cut text stop next)) : Node.Laid text start nodes next := by
  induction nodes generalizing start with
  | nil =>
    obtain ⟨hstart, hbefore⟩ := h
    exact ⟨hstart.trans hle, cut_append hstart hle ▸ hbefore.append hgap⟩
  | cons node nodes ih =>
    obtain ⟨hstart, hbefore, hnode, hrest⟩ := h
    exact ⟨hstart, hbefore, hnode, ih hrest⟩

/-- One more node behind the others. -/
theorem Node.Laid.snoc (h : Node.Laid text start nodes node.span.start) (hnode : node.Stands text) :
    Node.Laid text start (nodes ++ [node]) node.span.stop := by
  induction nodes generalizing start with
  | nil =>
    obtain ⟨hstart, hbefore⟩ := h
    exact ⟨hstart, hbefore, hnode, le_refl _, by rw [cut_self]; exact .nil⟩
  | cons other nodes ih =>
    obtain ⟨hstart, hbefore, hother, hrest⟩ := h
    exact ⟨hstart, hbefore, hother, ih hrest⟩

-- ======== gaps

/-- A text that ends with its last line. -/
def Ended (bs : Bytes) : Prop := bs = [] ∨ bs.getLast? = some 10

theorem Ended.tail (h : Ended (b :: bs)) : Ended bs := by
  rcases h with h | h
  · cases h
  · cases bs with
    | nil => exact .inl rfl
    | cons c bs => exact .inr (by rwa [getLast?_cons_cons] at h)

theorem Ended.drop (h : Ended bs) (n : Nat) : Ended (bs.drop n) := by
  induction n generalizing bs with
  | zero => exact h
  | succ n ih =>
    cases bs with
    | nil => exact .inl rfl
    | cons b bs => exact ih h.tail

theorem Ended.ne_nil (h : Ended (b :: bs)) (hb : b ≠ 10) : bs ≠ [] := by
  rintro rfl
  rcases h with h | h
  · cases h
  · exact hb (Option.some.inj h)

/-- What is skipped is a gap. If a comment is open, some of it may be skipped
already. -/
theorem gap_widthFrom (h : Ended bs) :
    Gap (bs.take (Blanks.source.widthFrom false bs)) ∧
      (bs ≠ [] → ∀ seen, 10 ∉ seen →
        Gap (59 :: (seen ++ bs.take (Blanks.source.widthFrom true bs)))) := by
  induction bs with
  | nil => exact ⟨.nil, fun hne => absurd rfl hne⟩
  | cons b bs ih =>
    obtain ⟨ihgap, ihcomment⟩ := ih h.tail
    constructor
    · rw [Blanks.widthFrom, if_neg (by simp)]
      split_ifs with hspace hcomment
      · have hb : b ∈ [32, 9, 13, 10] := by
          simpa [Blanks.source, Spaces.contains, Spaces.all] using hspace
        exact .space hb ihgap
      · obtain ⟨rfl, hb⟩ : b = 59 ∧ b ≠ 10 := by simpa [Blanks.source] using hcomment
        exact ihcomment (h.ne_nil hb) [] not_mem_nil
      · exact .nil
    · intro _ seen hseen
      rw [Blanks.widthFrom]
      by_cases hb : b = 10
      · subst hb
        exact .comment hseen ihgap
      · rw [if_pos (by simpa using hb), take_succ_cons, append_cons]
        refine ihcomment (h.ne_nil hb) (seen ++ [b]) ?_
        rw [mem_append, mem_singleton, not_or]
        exact ⟨hseen, Ne.symm hb⟩

theorem width_le (bs : Bytes) : Blanks.source.width bs ≤ bs.length := by
  have hle (inComment : Bool) : Blanks.source.widthFrom inComment bs ≤ bs.length := by
    fun_induction Blanks.widthFrom Blanks.source inComment bs with
    | case1 => exact le_refl _
    | case2 _ _ _ _ ih => exact Nat.succ_le_succ ih
    | case3 _ _ _ _ _ ih => exact Nat.succ_le_succ ih
    | case4 _ _ _ _ _ _ ih => exact Nat.succ_le_succ ih
    | case5 => exact Nat.zero_le _
  exact hle false

-- ======== atoms

/-- A reader has taken the text of an atom. -/
def Takes (pos : Nat) (bs : Bytes) (r : Node × Nat) : Prop :=
  ∃ width, 0 < width ∧ width ≤ bs.length ∧ r.2 = pos + width ∧ r.1.span = ⟨pos, pos + width⟩ ∧
    (∀ span items, r.1 ≠ .list span items) ∧ IsAtomText (bs.take width)

theorem Plain.nil : Plain [] := fun _ hb => absurd hb not_mem_nil

theorem Plain.cons (hb : b ∉ delimiters) (h : Plain bs) : Plain (b :: bs) := by
  intro c hc
  rcases mem_cons.1 hc with rfl | hc
  · exact hb
  · exact h c hc

theorem Plain.append (h : Plain bs) (hrest : Plain rest) : Plain (bs ++ rest) := fun b hb =>
  (mem_append.1 hb).elim (h b) (hrest b)

theorem not_mem_of_digit (h : (decimalDigit? b).isSome = true) : b ∉ delimiters := by
  intro hb
  simp only [delimiters, mem_cons, not_mem_nil, or_false] at hb
  rcases hb with rfl | rfl | rfl | rfl | rfl | rfl | rfl <;> cases h

/-- No delimiter belongs to a number. -/
theorem plain_numeralWidth (started point exponent : Bool) (bs : Bytes) :
    Plain (bs.take (numeralWidth started point exponent bs).1) := by
  fun_induction numeralWidth started point exponent bs with
  | case1 => exact .nil
  | case2 _ _ _ _ _ hdigit _ _ hrec ih =>
    rw [hrec] at ih
    exact ih.cons (not_mem_of_digit hdigit)
  | case3 _ _ _ b _ _ hpoint _ _ hrec ih =>
    rw [hrec] at ih
    obtain rfl : b = 46 := by simpa using (Bool.and_eq_true_iff.1 hpoint).2
    exact ih.cons (by decide)
  | case4 _ _ _ b _ _ hexp c _ hsign _ _ hrec ih =>
    rw [hrec] at ih
    have hb : b = 101 ∨ b = 69 := by simpa using (Bool.and_eq_true_iff.1 hexp).2
    have hc : c = 45 ∨ c = 43 := by simpa using hsign
    refine .cons ?_ (ih.cons ?_)
    · rcases hb with rfl | rfl <;> decide
    · rcases hc with rfl | rfl <;> decide
  | case5 _ _ _ b _ _ hexp _ _ _ _ _ hrec ih =>
    rw [hrec] at ih
    have hb : b = 101 ∨ b = 69 := by simpa using (Bool.and_eq_true_iff.1 hexp).2
    refine ih.cons ?_
    rcases hb with rfl | rfl <;> decide
  | case6 _ _ _ b _ _ hexp =>
    have hb : b = 101 ∨ b = 69 := by simpa using (Bool.and_eq_true_iff.1 hexp).2
    refine Plain.nil.cons ?_
    rcases hb with rfl | rfl <;> decide
  | case7 => exact .nil

theorem plain_signWidth (bs : Bytes) : Plain (bs.take (signWidth bs)) := by
  cases bs with
  | nil => exact .nil
  | cons b bs =>
    rw [signWidth]
    split_ifs with hsign
    · have hb : b = 45 ∨ b = 43 := by simpa using hsign
      refine Plain.nil.cons ?_
      rcases hb with rfl | rfl <;> decide
    · exact .nil

/-- A number takes at least its first digit. -/
theorem numeralWidth_pos {started point exponent : Bool} (h : startsWithDigit bs = true) :
    0 < (numeralWidth started point exponent bs).1 := by
  cases bs with
  | nil => cases h
  | cons b bs =>
    have hdigit : (decimalDigit? b).isSome = true := h
    unfold numeralWidth
    rw [if_pos hdigit]
    exact Nat.succ_pos _

/-- Plain text is that of an atom. -/
theorem isAtomText_take {width : Nat} (hpos : 0 < width) (hle : width ≤ bs.length)
    (h : Plain (bs.take width)) : IsAtomText (bs.take width) := by
  refine .inr ⟨ne_nil_of_length_pos ?_, h⟩
  rwa [length_take, min_eq_left hle]

/-- A number takes up its text. -/
theorem takes_readNumber {r : Node × Nat} (h : readNumber pos bs = .ok r) : Takes pos bs r := by
  have hplain : Plain (bs.take (signWidth bs +
      (numeralWidth false false false (bs.drop (signWidth bs))).1)) := by
    rw [take_add]
    exact (plain_signWidth bs).append (plain_numeralWidth false false false _)
  have hle : signWidth bs +
      (numeralWidth false false false (bs.drop (signWidth bs))).1 ≤ bs.length := by
    have hbody := numeralWidth_le false false false (bs.drop (signWidth bs))
    have hsign := signWidth_le bs
    rw [length_drop] at hbody
    omega
  unfold readNumber at h
  dsimp only at h
  split at h
  case isTrue => cases h
  case isFalse hnumber =>
    simp only [Bool.or_eq_true, Bool.not_eq_true', not_or, Bool.not_eq_false] at hnumber
    have hpos := @numeralWidth_pos _ false false false hnumber.1
    have htext := isAtomText_take (by omega) hle hplain
    split at h
    all_goals
      split at h
      · cases h
        exact ⟨_, by omega, hle, rfl, rfl, fun _ _ => Node.noConfusion, htext⟩
      · cases h

/-- A string that is closed ends with a quote. -/
theorem drop_of_closed {width : Nat} (h : stringEnd bs = .closed width) :
    ∃ rest, bs.drop width = 34 :: rest := by
  have hshift {e : StringEnd} {n w : Nat} (he : e.shift n = .closed w) :
      ∃ v, e = .closed v ∧ w = v + n := by
    cases e with
    | closed v => exact ⟨v, rfl, (StringEnd.closed.inj he).symm⟩
    | missing v => cases he
  fun_induction stringEnd bs generalizing width with
  | case1 => cases h
  | case2 b bs hb =>
    cases h
    exact ⟨bs, by rw [drop_zero, beq_iff_eq.1 hb]⟩
  | case3 b hquote hslash c bs ih =>
    obtain ⟨v, hv, rfl⟩ := hshift h
    exact ih hv
  | case4 => cases h
  | case5 b bs hquote hslash ih =>
    obtain ⟨v, hv, rfl⟩ := hshift h
    exact ih hv

/-- So does a string. -/
theorem takes_readString {r : Node × Nat} (h : readString pos bs = .ok r) : Takes pos bs r := by
  cases bs with
  | nil => cases h
  | cons b bs =>
    rw [readString] at h
    split at h
    case isTrue => cases h
    case isFalse hb =>
      obtain rfl : b = 34 := by simpa using hb
      split at h
      · cases h
      · next width hend =>
        split at h
        · cases h
          obtain ⟨rest, hrest⟩ := drop_of_closed hend
          have htake : (34 :: bs).take (width + 2) = 34 :: (bs.take width ++ [34]) := by
            rw [take_succ_cons, take_add, hrest]
            rfl
          have hle : width + 1 ≤ bs.length := by
            have hlength := congrArg List.length hrest
            rw [length_drop, length_cons] at hlength
            omega
          exact ⟨width + 2, by omega, by simpa using hle, rfl, rfl, fun _ _ => Node.noConfusion,
            .inl ⟨_, htake⟩⟩
        · cases h

/-- A character that does not begin with a delimiter has none. -/
theorem plain_ofChar {x : Char} (h : b :: bs = Bytes.ofChar x ++ rest) (hb : b ∉ delimiters) :
    Plain (Bytes.ofChar x) := by
  by_cases hascii : x.toNat < 0x80
  · rw [Text.ofChar_of_lt hascii] at h ⊢
    exact Plain.nil.cons ((List.cons.inj h).1 ▸ hb)
  · intro c hc hmem
    have hle := Text.le_of_mem_ofChar (Nat.le_of_not_lt hascii) hc
    simp only [delimiters, mem_cons, not_mem_nil, or_false] at hmem
    rcases hmem with rfl | rfl | rfl | rfl | rfl | rfl | rfl <;> exact absurd hle (by decide)

/-- No delimiter belongs to a symbol. -/
theorem plain_symbolWidth {width : Nat} (h : symbolWidth bs = .ok width) :
    width ≤ bs.length ∧ Plain (bs.take width) := by
  fun_induction symbolWidth bs generalizing width with
  | case1 =>
    cases h
    exact ⟨le_refl _, .nil⟩
  | case2 =>
    cases h
    exact ⟨Nat.zero_le _, .nil⟩
  | case3 => cases h
  | case4 => cases h
  | case5 b bs hdelimiter hquote x w hdecode hclean n hrec ih =>
    cases h
    obtain ⟨hle, hplain⟩ := ih hrec
    have hw := (Text.decodeChar?_eq_some_iff.1 hdecode).1
    have hchar : Plain (Bytes.ofChar x) :=
      plain_ofChar (Text.eq_ofChar_append hdecode) (isDelimiter_iff.not.1 hdelimiter)
    rw [Text.eq_ofChar_append hdecode, hw, length_append, add_comm n,
      take_length_add_append]
    rw [hw] at hle hplain
    exact ⟨Nat.add_le_add_left hle _, hchar.append hplain⟩
  | case6 => cases h
  | case7 => cases h
  | case8 => cases h

/-- So does a symbol. -/
theorem takes_readSymbol {r : Node × Nat} (h : readSymbol pos bs = .ok r) : Takes pos bs r := by
  rw [readSymbol] at h
  split at h
  · cases h
  · cases h
  · cases h
  · next width hne hwidth =>
    cases h
    obtain ⟨hle, hplain⟩ := plain_symbolWidth hwidth
    have hpos : 0 < width := pos_of_ne_zero hne
    exact ⟨width, hpos, hle, rfl, rfl, fun _ _ => Node.noConfusion, isAtomText_take hpos hle hplain⟩

/-- What comes first of several is one of them. -/
theorem mem_of_firstOf {all : List Grammar} {rs : List (Grammar × Outcome)} {seen : Option Failure}
    {r : Node × Nat} (h : firstOf all pos rs seen = .ok r) : ∃ g, (g, .ok r) ∈ rs := by
  fun_induction firstOf all pos rs seen with
  | case1 => cases h
  | case2 => cases h
  | case3 g r' => exact ⟨g, by cases h; exact mem_cons_self⟩
  | case4 g f rest seen ih =>
    obtain ⟨g', hg'⟩ := ih h
    exact ⟨g', mem_cons_of_mem _ hg'⟩

/-- An atom takes up its text, whichever kind it is. -/
theorem takes_readAtom {r : Node × Nat} (h : readAtom pos bs = .ok r) : Takes pos bs r := by
  obtain ⟨g, hg⟩ := mem_of_firstOf h
  simp only [mem_cons, not_mem_nil, or_false, Prod.mk.injEq] at hg
  rcases hg with ⟨-, hread⟩ | ⟨-, hread⟩ | ⟨-, hread⟩
  · exact takes_readNumber hread.symm
  · exact takes_readString hread.symm
  · exact takes_readSymbol hread.symm

end RefCount.Sexp
