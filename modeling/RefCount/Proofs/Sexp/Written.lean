/-
Written trees. A tree of lists and atoms is written as its tokens in order,
with blanks and comments between them as one likes. Only between two atoms
there has to be something. However it is written, each token reads as itself:
this file is about gaps and atoms, one at a time.

# The argument

A gap ends where it ends, since no token begins like a blank (`width_gap`). An
atom ends at a delimiter, and what follows an atom in a written text is one
(`Written.delimited`): a blank, a comment, a parenthesis or the end. Numbers are
tried first. A name is no number, and stays none before a delimiter
(`readNumber_append`), so a name is read as a symbol.
-/
import Mathlib
import RefCount.Sexp.Parse
import RefCount.Proofs.Text.Quoted

namespace RefCount.Sexp

open Numeral (digitByte decimalDigit?)
open List Bytes Blanks

-- ======== trees

/-- The bytes that end a token. -/
def delimiters : Bytes := [32, 9, 13, 10, 40, 41, 59]

/-- A text that can be the name of an identifier. -/
structure Name where
  text : String
  nonempty : text ≠ ""
  plain : ∀ b ∈ ofString text, b ∉ 34 :: delimiters
  clean : Text.replacement ∉ text.toList
  /-- It is no number. -/
  other : ∀ r, readNumber 0 (ofString text) ≠ .ok r

/-- An integer, a string or an identifier. -/
inductive Atom where
  | int (n : Int64)
  | str (s : Bytes)
  | ident (name : Name)

/-- A tree of lists and atoms. -/
inductive Tree where
  | atom (a : Atom)
  | list (items : List Tree)

/-- The node of an atom. -/
def Atom.node (span : Span) : Atom → Node
  | int n => .int span n
  | str s => .str span s
  | ident name => .ident span name.text

/-- A node is a tree, wherever it stands. -/
inductive Node.Is : Node → Tree → Prop
  | atom (span : Span) (a : Atom) : Is (a.node span) (.atom a)
  | list {items : List Node} {ts : List Tree} (span : Span) (h : List.Forall₂ Is items ts) :
      Is (.list span items) (.list ts)

-- ======== tokens

/-- How an atom is written: integers in decimal, strings in quotes. -/
def Atom.text : Atom → Bytes
  | int n => ofString (toString n.toInt)
  | str s => ofString (Text.quote s)
  | ident name => ofString name.text

/-- What a text is made of. -/
inductive Token where
  | opening
  | closing
  | atom (a : Atom)

namespace Token

def text : Token → Bytes
  | opening => [40]
  | closing => [41]
  | atom a => a.text

def isAtom : Token → Bool
  | atom _ => true
  | _ => false

end Token

mutual

/-- The tokens of a tree. -/
def Tree.tokens : Tree → List Token
  | .atom a => [.atom a]
  | .list items => .opening :: (Tree.tokensAll items ++ [.closing])

/-- The tokens of trees one after the other. -/
def Tree.tokensAll : List Tree → List Token
  | [] => []
  | t :: ts => t.tokens ++ Tree.tokensAll ts

end

/-- Blanks, and comments up to the end of their line. -/
inductive Gap : Bytes → Prop
  | nil : Gap []
  | space {b : UInt8} {rest : Bytes} (hb : b ∈ [32, 9, 13, 10]) (h : Gap rest) : Gap (b :: rest)
  | comment {text rest : Bytes} (htext : 10 ∉ text) (h : Gap rest) :
      Gap (59 :: (text ++ 10 :: rest))

/-- Tokens in order, with gaps between them. The flag says whether an atom
stands right before; then the next one needs a gap. -/
inductive Written : Bool → List Token → Bytes → Prop
  | nil {after : Bool} {gap : Bytes} (hgap : Gap gap) : Written after [] gap
  | cons {after : Bool} {t : Token} {ts : List Token} {gap rest : Bytes} (hgap : Gap gap)
      (hapart : after = true → t.isAtom = true → gap ≠ []) (hrest : Written t.isAtom ts rest) :
      Written after (t :: ts) (gap ++ (t.text ++ rest))

-- ======== gaps

variable {b : UInt8} {bs text rest gap : Bytes} {pos : Nat}

theorem Gap.append {more : Bytes} (h : Gap gap) (hmore : Gap more) : Gap (gap ++ more) := by
  induction h with
  | nil => exact hmore
  | space hb _ ih => exact .space hb ih
  | @comment text rest htext _ ih =>
    rw [cons_append, append_assoc, cons_append]
    exact .comment htext ih

theorem isDelimiter_iff : isDelimiter b = true ↔ b ∈ delimiters := by
  simp [isDelimiter, delimiters, Spaces.contains, Spaces.all]
  tauto

/-- A comment goes on to the end of its line. -/
theorem widthFrom_comment (htext : 10 ∉ text) (rest : Bytes) :
    source.widthFrom true (text ++ 10 :: rest) = text.length + 1 + source.widthFrom false rest := by
  induction text with
  | nil =>
    rw [nil_append, widthFrom]
    exact Nat.add_comm _ _
  | cons b text ih =>
    have hb : b ≠ 10 := fun h => htext (h ▸ (.head _))
    rw [cons_append, widthFrom, if_pos (by simpa using hb),
      ih fun h => htext (mem_cons_of_mem b h), length_cons]
    omega

/-- A gap is skipped, and what follows it is looked at next. -/
theorem width_gap (h : Gap gap) (rest : Bytes) :
    source.width (gap ++ rest) = gap.length + source.width rest := by
  induction h with
  | nil => rw [nil_append, length_nil, Nat.zero_add]
  | @space b gap hb _ ih =>
    have hspace : source.spaces.contains b = true := by
      simpa [source, Spaces.contains, Spaces.all] using hb
    rw [cons_append, width, widthFrom, if_neg (by simp), if_pos hspace, ← width, ih, length_cons]
    omega
  | @comment text gap htext _ ih =>
    have hopen : source.width (59 :: (text ++ 10 :: (gap ++ rest))) =
        source.widthFrom true (text ++ 10 :: (gap ++ rest)) + 1 := rfl
    rw [cons_append, append_assoc, cons_append, hopen, widthFrom_comment htext, ← width, ih]
    simp only [length_cons, length_append]
    omega

theorem width_eq_zero (hb : b ∉ [32, 9, 13, 10, 59]) (rest : Bytes) :
    source.width (b :: rest) = 0 := by
  simp only [mem_cons, not_or] at hb
  simp [width, widthFrom, source, Spaces.contains, Spaces.all, hb]

/-- Blanks end where a token starts. -/
theorem width_token (hgap : Gap gap) (hb : b ∉ [32, 9, 13, 10, 59]) (rest : Bytes) :
    source.width (gap ++ b :: rest) = gap.length := by
  rw [width_gap hgap, width_eq_zero hb, Nat.add_zero]

theorem Gap.delimited (h : Gap gap) (hne : gap ≠ []) (rest : Bytes) :
    delimited (gap ++ rest) = true := by
  cases h with
  | nil => exact absurd rfl hne
  | space hb =>
    refine isDelimiter_iff.2 ?_
    simp only [delimiters, mem_cons, not_mem_nil] at hb ⊢
    tauto
  | comment => rfl

/-- What follows an atom ends it. -/
theorem Written.delimited {ts : List Token} (h : Written true ts text) : delimited text = true := by
  cases h with
  | nil hgap =>
    cases text with
    | nil => rfl
    | cons b gap =>
      rw [← append_nil (b :: gap)]
      exact hgap.delimited (cons_ne_nil b gap) []
  | @cons _ t ts gap rest hgap hapart =>
    cases gap with
    | nil =>
      cases t with
      | opening => rfl
      | closing => rfl
      | atom a => exact absurd rfl (hapart rfl rfl)
    | cons b gap => exact hgap.delimited (cons_ne_nil b gap) _

-- ======== numbers

section

variable (started point exponent : Bool)

/-- Nothing that ends a token belongs to a number. -/
theorem numeralWidth_delimited (h : delimited rest = true) :
    numeralWidth started point exponent rest = (0, point || exponent) := by
  cases rest with
  | nil => rfl
  | cons b rest =>
    have hb : b ∈ delimiters := isDelimiter_iff.1 h
    simp only [delimiters, mem_cons, not_mem_nil, or_false] at hb
    unfold numeralWidth
    rcases hb with rfl | rfl | rfl | rfl | rfl | rfl | rfl <;> simp [decimalDigit?]

theorem numeralWidth_append (text : Bytes)
    (h : delimited rest = true) : numeralWidth started point exponent (text ++ rest) =
      numeralWidth started point exponent text := by
  fun_induction numeralWidth started point exponent text with
  | case1 started point exponent => exact numeralWidth_delimited started point exponent h
  | case2 started point exponent b text hdigit n f hrec ih =>
    rw [cons_append]
    unfold numeralWidth
    rw [if_pos hdigit, ih, hrec]
  | case3 started point exponent b text hdigit hpoint n f hrec ih =>
    rw [cons_append]
    unfold numeralWidth
    rw [if_neg hdigit, if_pos hpoint, ih, hrec]
  | case4 started point exponent b hdigit hpoint hexp c text hsign n f hrec ih =>
    rw [cons_append, cons_append]
    unfold numeralWidth
    rw [if_neg hdigit, if_neg hpoint, if_pos hexp]
    dsimp only
    rw [if_pos hsign, ih, hrec]
  | case5 started point exponent b hdigit hpoint hexp c text hsign n f hrec ih =>
    rw [cons_append, cons_append]
    unfold numeralWidth
    rw [if_neg hdigit, if_neg hpoint, if_pos hexp]
    dsimp only
    rw [if_neg hsign, ← cons_append, ih, hrec]
  | case6 started point exponent b hdigit hpoint hexp =>
    -- An exponent without digits ends here, or at the delimiter.
    rw [cons_append, nil_append]
    unfold numeralWidth
    rw [if_neg hdigit, if_neg hpoint, if_pos hexp]
    cases rest with
    | nil => rfl
    | cons c rest =>
      have hc : ¬((c == 45 || c == 43) = true) := by
        have hmem : c ∈ delimiters := isDelimiter_iff.1 h
        simp only [delimiters, mem_cons, not_mem_nil, or_false] at hmem
        rcases hmem with rfl | rfl | rfl | rfl | rfl | rfl | rfl <;> decide
      dsimp only
      rw [if_neg hc, numeralWidth_delimited true point true h, Bool.or_true]
  | case7 started point exponent b text hdigit hpoint hexp =>
    rw [cons_append]
    unfold numeralWidth
    rw [if_neg hdigit, if_neg hpoint, if_neg hexp]

theorem numeralWidth_le (text : Bytes) :
    (numeralWidth started point exponent text).1 ≤ text.length := by
  fun_induction numeralWidth started point exponent text with
  | case1 => exact Nat.le_refl _
  | case7 => exact Nat.zero_le _
  | case6 => exact Nat.le_refl _
  | case2 _ _ _ _ _ _ _ _ hrec ih => rw [hrec] at ih; simpa using ih
  | case3 _ _ _ _ _ _ _ _ _ hrec ih => rw [hrec] at ih; simpa using ih
  | case4 _ _ _ _ _ _ _ _ _ _ _ _ hrec ih => rw [hrec] at ih; simpa using ih
  | case5 _ _ _ _ _ _ _ _ _ _ _ _ hrec ih => rw [hrec] at ih; simpa using ih

end

theorem signWidth_le (bs : Bytes) : signWidth bs ≤ bs.length := by
  cases bs with
  | nil => exact Nat.le_refl _
  | cons b bs =>
    unfold signWidth
    dsimp only
    split_ifs <;> simp

/-- The same text is read, whatever comes behind its end. -/
theorem readNumber_append (hne : text ≠ []) (h : delimited rest = true) :
    readNumber pos (text ++ rest) = readNumber pos text := by
  have hsign : signWidth (text ++ rest) = signWidth text := by
    obtain ⟨b, tail, rfl⟩ := exists_cons_of_ne_nil hne
    rfl
  have hdrop : (text ++ rest).drop (signWidth text) = text.drop (signWidth text) ++ rest :=
    drop_append_of_le_length (signWidth_le text)
  have hstarts (tail : Bytes) : startsWithDigit (tail ++ rest) = startsWithDigit tail := by
    cases tail with
    | cons => rfl
    | nil =>
      cases rest with
      | nil => rfl
      | cons b rest =>
        have hb : b ∈ delimiters := isDelimiter_iff.1 h
        simp only [delimiters, mem_cons, not_mem_nil, or_false] at hb
        rcases hb with rfl | rfl | rfl | rfl | rfl | rfl | rfl <;> rfl
  have hends (tail : Bytes) : delimited (tail ++ rest) = delimited tail := by
    cases tail with
    | cons => rfl
    | nil => exact h
  have hwidth : signWidth text +
      (numeralWidth false false false (text.drop (signWidth text))).1 ≤ text.length := by
    have hle := signWidth_le text
    have hbody := numeralWidth_le false false false (text.drop (signWidth text))
    rw [length_drop] at hbody
    omega
  unfold readNumber
  dsimp only
  rw [hsign, hdrop, numeralWidth_append _ _ _ _ h, hstarts, drop_append_of_le_length hwidth,
    hends, take_append_of_le_length hwidth]

/-- Where a number stands does not matter. -/
theorem readNumber_ne_ok (h : ∀ r, readNumber 0 bs ≠ .ok r) (pos : Nat) :
    ∃ f, readNumber pos bs = .error f := by
  unfold readNumber at h ⊢
  dsimp only at h ⊢
  split_ifs at h ⊢
  · exact ⟨_, rfl⟩
  · split at h
    · exact absurd rfl (h _)
    · exact ⟨_, rfl⟩
  · split at h
    · exact absurd rfl (h _)
    · exact ⟨_, rfl⟩

theorem numeralWidth_digits (started : Bool) {ds : List Nat} (h : ∀ d ∈ ds, d < 10) :
    numeralWidth started false false (ds.map digitByte) = (ds.length, false) := by
  induction ds generalizing started with
  | nil => rfl
  | cons d ds ih =>
    have hd := Numeral.decimalDigit?_digitByte d (h d (.head _))
    rw [map_cons]
    unfold numeralWidth
    rw [hd, if_pos Option.isSome_some, ih true fun e he => h e (mem_cons_of_mem d he)]
    rfl

/-- A number is read back. -/
theorem readNumber_int (n : Int64) : readNumber pos (Atom.text (.int n)) =
    .ok (.int ⟨pos, pos + (Atom.text (.int n)).length⟩ n, pos + (Atom.text (.int n)).length) := by
  have hread : Numeral.readInt (Atom.text (.int n)) = .ok n := Numeral.readInt_decimal n
  obtain ⟨ds, hne, hlt, -, htext⟩ := Numeral.exists_decimal n.toInt
  replace htext : Atom.text (.int n) = _ := htext
  obtain ⟨d, ds, rfl⟩ := exists_cons_of_ne_nil hne
  have hd : d < 10 := hlt d (.head _)
  have hstarts : startsWithDigit ((d :: ds).map digitByte) = true := by
    rw [map_cons, startsWithDigit, Numeral.decimalDigit?_digitByte d hd]
    rfl
  have hsign : (Atom.text (.int n)).drop (signWidth (Atom.text (.int n))) =
      (d :: ds).map digitByte := by
    rw [htext]
    split_ifs
    · rfl
    · have hplain : ∀ d < 10, (digitByte d == 45 || digitByte d == 43) = false := by decide
      rw [nil_append, map_cons, signWidth, hplain d hd]
      rfl
  have hwidth : signWidth (Atom.text (.int n)) + ((d :: ds).map digitByte).length =
      (Atom.text (.int n)).length := by
    rw [← hsign, length_drop]
    have hle := signWidth_le (Atom.text (.int n))
    omega
  unfold readNumber
  dsimp only
  rw [hsign, numeralWidth_digits false hlt, hstarts]
  dsimp only
  rw [← length_map digitByte, hwidth, drop_length, take_length, hread]
  rfl

-- ======== strings and symbols

theorem readNumber_quote : readNumber pos (34 :: rest) = .error ⟨pos, .numberExpected⟩ := rfl

/-- So is a string. -/
theorem readString_quoted (s rest : Bytes) : readString pos (Atom.text (.str s) ++ rest) =
      .ok (.str ⟨pos, pos + (Atom.text (.str s)).length⟩ s, pos + (Atom.text (.str s)).length) := by
  have htext : Atom.text (.str s) = 34 :: (Text.body s ++ [34]) := Text.ofString_quote s
  have hlength : (Atom.text (.str s)).length = (Text.body s).length + 2 := by
    rw [htext, length_cons, length_append, length_singleton]
  rw [hlength, htext, cons_append, append_assoc, singleton_append, readString,
    if_neg (by decide), Text.stringEnd_body]
  dsimp only
  rw [take_left, Text.unquote?_body]
  rfl

theorem symbolWidth_chars {xs : List Char} (hplain : ∀ x ∈ xs, ∀ b ∈ ofChar x, b ∉ 34 :: delimiters)
    (hclean : Text.replacement ∉ xs) (h : delimited rest = true) :
    symbolWidth (xs.flatMap ofChar ++ rest) = .ok (xs.flatMap ofChar).length := by
  induction xs with
  | nil =>
    cases rest with
    | nil =>
      rw [flatMap_nil, nil_append, symbolWidth]
      rfl
    | cons b rest =>
      have hb : isDelimiter b = true := h
      rw [flatMap_nil, nil_append, symbolWidth, if_pos hb]
      rfl
  | cons x xs ih =>
    obtain ⟨b, tail, hx⟩ := exists_cons_of_ne_nil (Text.ofChar_ne_nil x)
    have hb : b ∉ 34 :: delimiters := hplain x (.head _) b (by rw [hx]; exact .head _)
    rw [mem_cons, not_or] at hb
    have hdecode : Text.decodeChar? (b :: (tail ++ (xs.flatMap ofChar ++ rest))) =
        some (x, tail.length + 1) :=
      Text.decodeChar?_eq_some_iff.2 ⟨by rw [hx, length_cons], _, by rw [hx]; rfl⟩
    have hne : x ≠ Text.replacement := fun hx => hclean (hx ▸ (.head _))
    rw [flatMap_cons, hx, append_assoc, cons_append, symbolWidth,
      if_neg (isDelimiter_iff.not.2 hb.2), if_neg (by simpa using hb.1), hdecode]
    dsimp only
    rw [if_neg hne, Nat.add_sub_cancel, drop_left,
      ih (fun y hy => hplain y (mem_cons_of_mem x hy))
        (fun hmem => hclean (mem_cons_of_mem x hmem))]
    simp only [length_append, length_cons]
    exact congrArg Except.ok (Nat.add_comm _ _)

theorem Name.exists_bytes (name : Name) : ∃ b tail, ofString name.text = b :: tail := by
  refine exists_cons_of_ne_nil fun hnil => name.nonempty ?_
  rw [← toText_ofString name.text, hnil, toText, chars]
  rfl

theorem readSymbol_of_width {n : Nat} (h : symbolWidth bs = .ok n) (hn : n ≠ 0) :
    readSymbol pos bs = .ok (.ident ⟨pos, pos + n⟩ (toText (bs.take n)), pos + n) := by
  rw [readSymbol, h]
  cases n with
  | zero => exact absurd rfl hn
  | succ n => rfl

/-- So is a name. -/
theorem readSymbol_name (name : Name) (h : delimited rest = true) :
    readSymbol pos (Atom.text (.ident name) ++ rest) =
      .ok (.ident ⟨pos, pos + (Atom.text (.ident name)).length⟩ name.text,
        pos + (Atom.text (.ident name)).length) := by
  have htext : ofString name.text = name.text.toList.flatMap ofChar := by
    rw [Text.ofString_eq, funext Text.ofChar_eq]
  have hwidth : symbolWidth (ofString name.text ++ rest) =
      .ok (ofString name.text).length := by
    rw [htext]
    refine symbolWidth_chars (fun x hx b hb => name.plain b ?_) name.clean h
    rw [htext]
    exact mem_flatMap.2 ⟨x, hx, hb⟩
  obtain ⟨b, tail, hb⟩ := name.exists_bytes
  have hname : toText (b :: tail) = name.text := hb ▸ toText_ofString name.text
  rw [hb] at hwidth
  rw [Atom.text, hb, readSymbol_of_width hwidth (Nat.succ_ne_zero _), take_left, hname]

-- ======== atoms

/-- However it goes on behind its end, an atom is read as itself. -/
theorem readAtom_text (a : Atom) (h : delimited rest = true) : readAtom pos (a.text ++ rest) =
      .ok (a.node ⟨pos, pos + a.text.length⟩, pos + a.text.length) := by
  cases a with
  | int n =>
    have hne : Atom.text (.int n) ≠ [] := by
      obtain ⟨ds, hne, -, -, htext⟩ := Numeral.exists_decimal n.toInt
      rw [Atom.text, htext]
      simp [hne]
    rw [readAtom, readNumber_append hne h, readNumber_int, firstOf]
    rfl
  | str s =>
    have hnumber : readNumber pos (Atom.text (.str s) ++ rest) = .error ⟨pos, .numberExpected⟩ := by
      rw [Atom.text, Text.ofString_quote]
      exact readNumber_quote
    rw [readAtom, hnumber, readString_quoted, firstOf, firstOf]
    rfl
  | ident name =>
    obtain ⟨b, tail, hb⟩ := name.exists_bytes
    have hmem : b ∈ ofString name.text := by rw [hb]; exact .head _
    have hquote : b ≠ 34 := fun hb => name.plain b hmem (hb ▸ (.head _))
    have hstring : readString pos (Atom.text (.ident name) ++ rest) =
        .error ⟨pos, .stringExpected⟩ := by
      rw [Atom.text, hb, cons_append, readString, if_pos (by simpa using hquote)]
    obtain ⟨f, hnumber⟩ : ∃ f, readNumber pos (Atom.text (.ident name) ++ rest) = .error f := by
      rw [Atom.text, readNumber_append (by rw [hb]; exact cons_ne_nil b tail) h]
      exact readNumber_ne_ok name.other pos
    rw [readAtom, hnumber, hstring, readSymbol_name name h, firstOf, firstOf, firstOf]
    rfl

/-- An atom does not begin like a gap or a parenthesis. -/
theorem Atom.exists_text (a : Atom) : ∃ b tail, a.text = b :: tail ∧ b ∉ delimiters := by
  cases a with
  | int n =>
    obtain ⟨ds, hne, hlt, -, htext⟩ := Numeral.exists_decimal n.toInt
    obtain ⟨d, ds, rfl⟩ := exists_cons_of_ne_nil hne
    have hplain : ∀ d < 10, digitByte d ∉ delimiters := by decide
    rw [Atom.text, htext]
    split_ifs
    · exact ⟨45, (d :: ds).map digitByte, rfl, by decide⟩
    · exact ⟨digitByte d, ds.map digitByte, rfl, hplain d (hlt d (.head _))⟩
  | str s => exact ⟨34, _, Text.ofString_quote s, by decide⟩
  | ident name =>
    obtain ⟨b, tail, hb⟩ := name.exists_bytes
    have hmem : b ∈ ofString name.text := by rw [hb]; exact .head _
    exact ⟨b, tail, hb, fun h => name.plain b hmem (mem_cons_of_mem 34 h)⟩

end RefCount.Sexp
