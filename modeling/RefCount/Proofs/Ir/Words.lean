/-
Lines of code that can be read in one way only. A line is an instruction or
what ends a block; it is known from its text and what follows it.

# The argument

A line starts with the variable that it defines, if it does, and a word. The
word is one of a table, or it starts a literal, and no literal starts with a
word of the table (`kindOf_line`). So the form of a line is known, and its
operands are read one after the other: each is a number, a name or a type, and
ends where the form has a character that cannot go on with it. A name ends
before a blank. So does a type with a variant, but a type's name may have dots;
the last one stands before the variant (`variant_append_inj`).
-/
import Mathlib
import RefCount.Ir.Operands
import RefCount.Ir.Text
import RefCount.Proofs.Typing.Graph
import RefCount.Proofs.Typing.Intern
import RefCount.Proofs.Text.Quoted
import RefCount.Proofs.Text.Reading

namespace RefCount

open List Text

variable {s t : List Char}

-- ======== literals

/-- A character that a number can have. -/
def isNumeric (c : Char) : Bool := c.isDigit || c ∈ ['.', 'e', '+', '-']

theorem isNumeric_of_mem_toDigits {n : Nat} {c : Char} (h : c ∈ Nat.toDigits 10 n) :
    isNumeric c = true := by
  rw [isNumeric, Nat.isDigit_of_mem_toDigits (by decide) (by decide) h, Bool.true_or]

theorem isNumeric_int {n : Int} {c : Char} (h : c ∈ (toString n).toList) :
    isNumeric c = true := by
  have hc := int_chars h
  simp only [isNumeric, Bool.or_eq_true, beq_iff_eq] at hc ⊢
  grind

namespace Numeral

variable {ds : List Char}

/-- A number with an exponent has such characters only. -/
theorem isNumeric_scientific (hds : ∀ c ∈ ds, isNumeric c = true) (e : Int) :
    ∀ c ∈ (scientific ds e).toList, isNumeric c = true := by
  have hexp : ∀ c ∈ Nat.toDigits 10 e.natAbs, isNumeric c = true := fun _ =>
    isNumeric_of_mem_toDigits
  have hsigns : ∀ c ∈ ['.', 'e', '-', '+', '0'], isNumeric c = true := by simp [isNumeric]
  rw [scientific, String.toList_ofList]
  simp only [mem_append]
  rintro c (((hc | hc) | hc) | hc) <;> grind

/-- So has a number without one. -/
theorem isNumeric_positional (hds : ∀ c ∈ ds, isNumeric c = true) (e : Int) :
    ∀ c ∈ (positional ds e).toList, isNumeric c = true := by
  have hsigns : ∀ c ∈ ['0', '.'], isNumeric c = true := by simp [isNumeric]
  have hzero : "0.".toList = ['0', '.'] := by simp
  grind [positional, String.toList_ofList]

/-- A double is written by a name or with characters of numbers. -/
theorem floatText_cases (x : Float) : floatText x ∈ ["NaN", "-Inf", "+Inf"] ∨
    ∀ c ∈ (floatText x).toList, isNumeric c = true := by
  unfold floatText
  split
  · simp
  · split <;> simp
  · next m q _ =>
    have hds : ∀ c ∈ trimZeros (Nat.toDigits 10 (shortest m q).1), isNumeric c = true := by
      intro c hc
      rw [trimZeros, mem_reverse] at hc
      exact isNumeric_of_mem_toDigits (mem_reverse.1 ((dropWhile_sublist _).subset hc))
    right
    rw [String.toList_append, forall_mem_append]
    refine ⟨by split <;> simp [isNumeric], ?_⟩
    split
    · simp [isNumeric]
    · unfold magnitudeText
      dsimp only
      split
      · exact isNumeric_scientific hds _
      · exact isNumeric_positional hds _

end Numeral

namespace Ir

/-- A character that a word can have. -/
def isWordChar (c : Char) : Bool := !c.isWhitespace && c != '(' && c != ')'

/-- A name without blanks and parentheses. -/
def IsWord (n : String) : Prop := n ≠ "" ∧ ∀ c ∈ n.toList, isWordChar c = true

/-- A word is known if what follows does not go on with it. -/
theorem IsWord.append_inj {m n : String} (hm : IsWord m) (hn : IsWord n)
    (hs : ∀ c ∈ s.head?, isWordChar c = false) (ht : ∀ c ∈ t.head?, isWordChar c = false)
    (h : m.toList ++ s = n.toList ++ t) : m = n ∧ s = t := by
  obtain ⟨hmn, hst⟩ := span_append_inj _ hm.2 hn.2 hs ht h
  exact ⟨String.toList_inj.1 hmn, hst⟩

/-- A number is a word. -/
theorem isWordChar_of_isNumeric {c : Char} (h : isNumeric c = true) : isWordChar c = true := by
  by_contra hc
  simp only [isWordChar, Char.isWhitespace, bne, Bool.and_eq_true, Bool.not_eq_true', not_and_or,
    Bool.not_eq_false, Bool.or_eq_true, decide_eq_true_eq, beq_iff_eq] at hc
  obtain ((((rfl | rfl) | rfl) | rfl) | rfl) | rfl := hc <;> simp [isNumeric] at h

-- ======== variables and targets

/-- The characters of a variable. -/
def varChars (v : Var) : List Char := 'v' :: (toString v).toList

/-- The characters of a target. -/
def targetChars : Target → List Char
  | some b => 'b' :: (toString b).toList
  | none => ['-']

/-- The characters of variables with a blank before each. -/
def varsChars (vs : List Var) : List Char := vs.flatMap fun v => ' ' :: varChars v

@[simp] theorem toList_varText (v : Var) : (varText v).toList = varChars v := by
  simp [varText, varChars]

@[simp] theorem toList_targetText (b : Target) : (targetText b).toList = targetChars b := by
  cases b <;> simp [targetText, targetChars]

@[simp] theorem toList_varsText (vs : List Var) : (varsText vs).toList = varsChars vs := by
  simp [varsText, varsChars, flatMap_map]

/-- A variable is known if what follows does not go on with its number. -/
theorem var_append_inj {v w : Var} (hs : Stops s) (ht : Stops t)
    (h : varChars v ++ s = varChars w ++ t) : v = w ∧ s = t :=
  nat_append_inj hs ht (cons.inj h).2

/-- So is a target. -/
theorem target_append_inj {a b : Target} (hs : Stops s) (ht : Stops t)
    (h : targetChars a ++ s = targetChars b ++ t) : a = b ∧ s = t := by
  cases a <;> cases b <;> simp only [targetChars, cons_append, cons.injEq] at h
  · exact ⟨rfl, h.2⟩
  · exact absurd h.1 (by decide)
  · exact absurd h.1 (by decide)
  · obtain ⟨rfl, hst⟩ := nat_append_inj hs ht h.2
    exact ⟨rfl, hst⟩

/-- A blank or the end of a line stands here, or nothing. -/
def Gap (s : List Char) : Prop := ∀ c ∈ s.head?, c = ' ' ∨ c = '\n'

@[simp] theorem gap_cons {c : Char} : Gap (c :: s) ↔ c = ' ' ∨ c = '\n' := by simp [Gap]

theorem Gap.stops (h : Gap s) : Stops s := fun c hc => by rcases h c hc with rfl | rfl <;> rfl

theorem Gap.noWord (h : Gap s) : ∀ c ∈ s.head?, isWordChar c = false :=
  fun c hc => by rcases h c hc with rfl | rfl <;> rfl

theorem Gap.vars {vs : List Var} (hs : Gap s) : Gap (varsChars vs ++ s) := by
  cases vs with
  | nil => exact hs
  | cons v vs => simp [varsChars]

/-- No further variable stands here. -/
def Closes (s : List Char) : Prop := Stops s ∧ ∀ u, s ≠ ' ' :: 'v' :: u

/-- Variables are known if what follows is not one more. -/
theorem vars_append_inj {vs ws : List Var} (hs : Closes s) (ht : Closes t)
    (h : varsChars vs ++ s = varsChars ws ++ t) : vs = ws ∧ s = t :=
  flatMap_append_inj (fun v _ w _ _ _ hs ht h => var_append_inj hs ht (cons.inj h).2)
    (fun v s => by simp) hs.1 ht.1 (fun v u h => hs.2 _ h.symm) (fun v u h => ht.2 _ h.symm) h

/-- Variables up to the end of a line are known. -/
theorem vars_line_inj {vs ws : List Var}
    (h : varsChars vs ++ '\n' :: s = varsChars ws ++ '\n' :: t) : vs = ws ∧ s = t := by
  obtain ⟨hvs, hst⟩ := vars_append_inj (by simp [Closes]) (by simp [Closes]) h
  exact ⟨hvs, (cons.inj hst).2⟩

-- ======== types

/-- The names of a pool's types are words. -/
def Worded (p : Pool) : Prop := ∀ i d, p.get? i = some d → d.isNamed = true → IsWord d.name

/-- The last dot of a name with a variant stands before the variant. -/
theorem last_dot_inj {m n : String} {i j : Int}
    (h : m.toList ++ '.' :: (toString i).toList = n.toList ++ '.' :: (toString j).toList) :
    m = n := by
  have hdot : ∀ {i : Int}, ∀ c ∈ (toString i).toList.reverse, (c != '.') = true := by
    intro i c hc
    rw [bne_iff_ne]
    rintro rfl
    exact absurd (int_chars (mem_reverse.1 hc)) (by decide)
  have hrev := congrArg reverse h
  simp only [reverse_append, reverse_cons, append_assoc, singleton_append] at hrev
  obtain ⟨-, hname⟩ := span_append_inj (· != '.') hdot hdot (by simp) (by simp) hrev
  exact String.toList_inj.1 (reverse_injective (cons.inj hname).2)

/-- A type with a variant is known if a blank or the end of the line follows.
-/
theorem variant_append_inj {p : Pool} (hp : p.Canonical) (hw : Worded p) {a b : TypeId}
    (ha : (p.get? a).isSome) (hb : (p.get? b).isSome) {i j : Int} (hs : Gap s) (ht : Gap t)
    (h : (variantText p a i).toList ++ s = (variantText p b j).toList ++ t) :
    a = b ∧ i = j ∧ s = t := by
  have hword : ∀ {a : TypeId} {d : TypeDef} {i : Int}, p.get? a = some d → d.isNamed = true →
      ∀ c ∈ d.name.toList ++ '.' :: (toString i).toList, isWordChar c = true := by
    intro a d i hd hn c hc
    rcases mem_append.1 hc with hc | hc
    · exact (hw a d hd hn).2 c hc
    · rcases mem_cons.1 hc with rfl | hc
      · rfl
      · exact isWordChar_of_isNumeric (isNumeric_int hc)
  simp only [variantText, String.toList_append, append_assoc] at h
  obtain ⟨rfl, hrest⟩ := hp.name_append_inj _ a b (Nat.lt_succ_self _) ha hb _ _
    (fun d d' hd hd' hn hn' h => by
      have hsplit : (d.name.toList ++ '.' :: (toString i).toList) ++ s =
          (d'.name.toList ++ '.' :: (toString j).toList) ++ t := by simpa using h
      have hname := last_dot_inj
        (span_append_inj _ (hword hd hn) (hword hd' hn') hs.noWord ht.noWord hsplit).1
      rw [hname] at h
      exact ⟨hname, append_cancel_left h⟩) h
  obtain ⟨rfl, rfl⟩ := int_append_inj hs.stops ht.stops (append_cancel_left hrest)
  exact ⟨rfl, rfl, rfl⟩

-- ======== literals

/-- A quoted text is known, whatever follows. -/
theorem quote_append_inj {a b : Bytes} (h : (quote a).toList ++ s = (quote b).toList ++ t) :
    a = b ∧ s = t := by
  have hbytes := congrArg (fun u => Bytes.ofString (String.ofList u)) h
  simp only [String.ofList_append, String.ofList_toList, ofString_append, ofString_quote,
    cons_append, append_assoc, nil_append, cons.injEq, true_and] at hbytes
  have hlength : (body a).length = (body b).length := by
    have hend := stringEnd_body a (Bytes.ofString (String.ofList s))
    rw [hbytes, stringEnd_body] at hend
    exact (Sexp.StringEnd.closed.inj hend).symm
  have hbody := (append_inj hbytes hlength).1
  have hab : some a = some b := by rw [← unquote?_body a, hbody, unquote?_body]
  obtain rfl := Option.some.inj hab
  exact ⟨rfl, append_cancel_left h⟩

/-- A double is written as a word. -/
theorem isWordChar_floatText (x : Float) {c : Char} (hc : c ∈ (Numeral.floatText x).toList) :
    isWordChar c = true := by
  obtain hx | hx := Numeral.floatText_cases x
  · have hspecial : ∀ w ∈ ["NaN", "-Inf", "+Inf"], ∀ c ∈ w.toList, isWordChar c = true := by
      simp [isWordChar, Char.isWhitespace]
    exact hspecial _ hx c hc
  · exact isWordChar_of_isNumeric (hx c hc)

/-- A literal of a known kind is known from its line. -/
theorem literal_append_inj {v w : Literal} (hkind : v.builtin = w.builtin)
    (hprint : ∀ x y, v = .float x → w = .float y →
      Numeral.floatText x = Numeral.floatText y → x = y)
    (h : v.text.toList ++ '\n' :: s = w.text.toList ++ '\n' :: t) : v = w ∧ s = t := by
  cases v <;> cases w <;> cases hkind
  case unit => exact ⟨rfl, by simpa [Literal.text] using h⟩
  case int m n =>
    obtain ⟨hmn, hst⟩ := int_append_inj (by simp) (by simp) h
    exact ⟨by rw [Int64.toInt_inj.1 hmn], (cons.inj hst).2⟩
  case float x y =>
    have hline : ∀ {s : List Char}, Gap ('\n' :: s) := by simp
    obtain ⟨hxy, hst⟩ := span_append_inj _ (fun _ => isWordChar_floatText x)
      (fun _ => isWordChar_floatText y) hline.noWord hline.noWord h
    exact ⟨by rw [hprint x y rfl rfl (String.toList_inj.1 hxy)], (cons.inj hst).2⟩
  case bool a b => cases a <;> cases b <;> simp_all [Literal.text]
  case char c d =>
    simp only [Literal.text, String.toList_append, append_assoc] at h
    obtain ⟨hcd, hst⟩ := int_append_inj (by simp) (by simp) (append_cancel_left h)
    exact ⟨by rw [Int32.toInt_inj.1 hcd], (cons.inj hst).2⟩
  case str a b =>
    obtain ⟨rfl, hst⟩ := quote_append_inj h
    exact ⟨rfl, (cons.inj hst).2⟩

-- ======== lines

namespace Instr

/-- The word that tells instructions apart. -/
def word : Instr → String
  | lit _ v => v.text
  | move _ _ => "move"
  | prim _ op _ => op
  | call _ _ _ _ => "call"
  | callClosure _ _ _ => "call_indirect"
  | closure _ _ _ => "closure"
  | construct _ _ _ _ => "new"
  | project _ _ _ _ => "proj"
  | tag _ _ => "tag"
  | inc _ => "inc"
  | dec _ => "dec"
  | reset _ _ => "reset"
  | reuse _ _ _ _ _ => "reuse"
  | isShared _ _ => "is_shared"
  | set _ _ _ => "set"
  | setTag _ _ => "set_tag"

/-- What stands behind the word of an instruction. -/
def operands (p : Pool) : Instr → String
  | lit _ _ => ""
  | move _ v | tag _ v | inc v | dec v | reset _ v | isShared _ v => varsText [v]
  | prim _ _ args => varsText args
  | call _ f args tail => " " ++ f ++ varsText args ++ (if tail then " tail" else "")
  | callClosure _ c args => varsText (c :: args)
  | closure _ f captures => " " ++ f ++ varsText captures
  | construct _ t v args => " " ++ variantText p t v ++ varsText args
  | project _ src v i => varsText [src] ++ "." ++ toString v ++ "." ++ toString i
  | reuse _ token t v args => varsText [token] ++ " " ++ variantText p t v ++ varsText args
  | set v i value => varsText [v] ++ "." ++ toString i ++ " =" ++ varsText [value]
  | setTag v n => varsText [v] ++ " = " ++ toString n

end Instr

namespace Term

/-- The word of what ends a block. -/
def word : Term → String
  | ret _ => "return"
  | jump _ _ => "jump"
  | branch _ _ _ => "branch"
  | switch _ _ _ => "switch"
  | unreachable => "unreachable"

/-- One case of a switch. -/
def caseText (c : Case) : String := " " ++ toString c.value.toInt ++ ":" ++ targetText c.target

/-- The default of a switch, if it has one. -/
def defaultText (d : Target) : String := if d.isSome then " default:" ++ targetText d else ""

/-- What stands behind the word of what ends a block. -/
def operands : Term → String
  | ret v => varsText [v]
  | jump b args => " " ++ targetText b ++ varsText args
  | branch c a b => varsText [c] ++ " " ++ targetText a ++ " " ++ targetText b
  | switch v cases d => varsText [v] ++ String.join (cases.map caseText) ++ defaultText d
  | unreachable => ""

end Term

/-- A line of a block: an instruction or what stands for the end. -/
abbrev Line := Instr ⊕ Option Term

namespace Line

def def? : Line → Option Var := Sum.elim Instr.def? fun _ => none

def word : Line → String
  | .inl x => x.word
  | .inr (some t) => t.word
  | .inr none => "<no"

def operands (p : Pool) : Line → String
  | .inl x => x.operands p
  | .inr (some t) => t.operands
  | .inr none => " terminator>"

def text (p : Pool) : Line → String
  | .inl x => x.text p
  | .inr (some t) => t.text
  | .inr none => "<no terminator>"

/-- A line is the variable that it defines, a word and operands. -/
theorem toList_text (p : Pool) (x : Line) : (x.text p).toList =
    (match x.def? with | some v => varChars v ++ " = ".toList | none => []) ++
      (x.word.toList ++ (x.operands p).toList) := by
  rcases x with x | _ | x
  · cases x <;> simp [text, def?, Instr.def?, Instr.text, word, operands, Instr.word,
      Instr.operands, varsChars]
  · simp [text, def?, word, operands]
  · cases x <;> simp [text, def?, word, operands, Term.text, Term.word, Term.operands, varsChars,
      Term.caseText, Term.defaultText, flatMap_map]

/-- Numbers for the forms of lines. -/
def kind : Line → Nat
  | .inl x => x.ctorIdx
  | .inr none => 16
  | .inr (some t) => 17 + t.ctorIdx

/-- The operations on values. -/
def primOps : List Op := ["add", "sub", "mul", "div", "rem", "neg", "lt", "le", "gt", "ge", "eq",
  "ne", "and", "or", "not", "concat", "strlen"]

/-- The words that lines start with, and the forms that they stand for. -/
def words : List (String × Nat) :=
  [("move", 1), ("call", 3), ("call_indirect", 4), ("closure", 5), ("new", 6), ("proj", 7),
    ("tag", 8), ("inc", 9), ("dec", 10), ("reset", 11), ("reuse", 12), ("is_shared", 13),
    ("set", 14), ("set_tag", 15), ("<no", 16), ("return", 17), ("jump", 18), ("branch", 19),
    ("switch", 20), ("unreachable", 21)] ++ primOps.map (·, 2)

/-- The form of a line by its first word; a literal has none of the words. -/
def kindOf (s : List Char) : Nat :=
  (words.lookup (String.ofList (s.takeWhile isWordChar))).getD 0

/-- The form by a word that ends. -/
theorem kindOf_append {w u : List Char} (hw : ∀ c ∈ w, isWordChar c = true)
    (hu : ∀ c ∈ u.head?, isWordChar c = false) :
    kindOf (w ++ u) = (words.lookup (String.ofList w)).getD 0 := by
  rw [kindOf, takeWhile_append_of_pos hw]
  cases u with
  | nil => simp
  | cons c u => simp [hu c rfl]

theorem kindOf_eq_zero (h : ∀ k ∈ words, k.1 ≠ String.ofList (s.takeWhile isWordChar)) :
    kindOf s = 0 := by
  have hnone : words.lookup (String.ofList (s.takeWhile isWordChar)) = none :=
    lookup_eq_none_iff.2 fun k hk => by simpa using (h k hk).symm
  rw [kindOf, hnone]
  rfl

/-- A number is no word of the table. -/
theorem kindOf_numeric (h : ∀ c ∈ s, isNumeric c = true) : kindOf (s ++ '\n' :: t) = 0 := by
  have hkeys : ∀ k ∈ words, ∃ c ∈ k.1.toList, isNumeric c = false := by
    simp [words, primOps, isNumeric]
  refine kindOf_eq_zero fun k hk heq => ?_
  obtain ⟨c, hc, hno⟩ := hkeys k hk
  rw [heq, String.toList_ofList,
    takeWhile_append_of_pos fun c hc => isWordChar_of_isNumeric (h c hc)] at hc
  simp [h c (by simpa [isWordChar] using hc)] at hno

/-- Nor is any literal. -/
theorem kindOf_literal (v : Literal) : kindOf (v.text.toList ++ '\n' :: s) = 0 := by
  have hword : ∀ w ∈ ["unit", "true", "false", "NaN", "-Inf", "+Inf"],
      kindOf (w.toList ++ '\n' :: s) = 0 := by
    have hnone : ∀ w ∈ ["unit", "true", "false", "NaN", "-Inf", "+Inf"],
        (∀ c ∈ w.toList, isWordChar c = true) ∧ (words.lookup w).getD 0 = 0 := by
      simp [isWordChar, Char.isWhitespace, words, primOps, lookup_cons]
    intro w hw
    rw [kindOf_append (hnone w hw).1 (by simp [isWordChar]), String.ofList_toList, (hnone w hw).2]
  cases v with
  | unit => exact hword _ (by simp [Literal.text])
  | bool b => cases b <;> exact hword _ (by simp [Literal.text])
  | int n => exact kindOf_numeric fun c => isNumeric_int
  | float x =>
    obtain hx | hx := Numeral.floatText_cases x
    · exact hword _ (mem_append_right ["unit", "true", "false"] hx)
    · exact kindOf_numeric hx
  | char c =>
    simp only [Literal.text, String.toList_append, append_assoc]
    rfl
  | str b =>
    have hkeys : ∀ k ∈ words, k.1.toList.head? ≠ some '"' := by simp [words, primOps]
    refine kindOf_eq_zero fun k hk heq => hkeys k hk ?_
    simp [heq, Literal.text, quote, isWordChar]

/-- The word of a line ends before its operands. -/
theorem gap_operands (p : Pool) (x : Line) : Gap ((x.operands p).toList ++ '\n' :: s) := by
  have hline : Gap ('\n' :: s) := by simp
  rcases x with x | _ | x
  · cases x with
    | prim dst op args => simpa [operands, Instr.operands] using hline.vars
    | _ => simp [operands, Instr.operands, varsChars]
  · simp [operands]
  · cases x <;> simp [operands, Term.operands, varsChars]

/-- A literal is of its variable's type, and its double, if it is one, is in
`S`; names are words, operations are known and types are there. -/
def Legible (p : Pool) (S : Set Float) (types : Array TypeId) : Line → Prop
  | .inl (.lit dst v) => (∃ t, types[dst]? = some t ∧ p.shape? t = some (.builtin v.builtin)) ∧
      ∀ x, v = .float x → x ∈ S
  | .inl (.prim _ op _) => op ∈ primOps
  | .inl (.call _ f _ _) | .inl (.closure _ f _) => IsWord f
  | .inl (.construct _ t _ _) | .inl (.reuse _ _ t _ _) => (p.get? t).isSome
  | _ => True

variable {p : Pool} {S : Set Float} {types : Array TypeId} {x y : Line}

theorem primOps_words : ∀ op ∈ primOps, IsWord op ∧ (words.lookup op).getD 0 = 2 := by
  simp [IsWord, isWordChar, Char.isWhitespace, words, primOps, lookup_cons]

/-- The form of a line is read off its first word. -/
theorem kindOf_line (hx : x.Legible p S types) :
    kindOf (x.word.toList ++ ((x.operands p).toList ++ '\n' :: s)) = x.kind := by
  have hfixed : ∀ k, (∀ c ∈ x.word.toList, isWordChar c = true) →
      (words.lookup x.word).getD 0 = k →
      kindOf (x.word.toList ++ ((x.operands p).toList ++ '\n' :: s)) = k := fun k hw hk => by
    rw [kindOf_append hw (gap_operands p x).noWord, String.ofList_toList, hk]
  rcases x with x | _ | x
  · cases x with
    | lit dst v => exact kindOf_literal v
    | prim dst op args => exact hfixed 2 (primOps_words op hx).1.2 (primOps_words op hx).2
    | _ => exact hfixed _ (by simp [word, Instr.word, isWordChar, Char.isWhitespace]) rfl
  · exact hfixed _ (by simp [word, isWordChar, Char.isWhitespace]) rfl
  · cases x <;> exact hfixed _ (by simp [word, Term.word, isWordChar, Char.isWhitespace]) rfl

end Line

namespace Term

variable {x y : Term}

/-- A case of a switch is known from what is written. -/
theorem case_append_inj {a b : Case} (hs : Gap s) (ht : Gap t)
    (h : (caseText a).toList ++ s = (caseText b).toList ++ t) : a = b ∧ s = t := by
  simp only [caseText, String.toList_append, append_assoc, append_cancel_left_eq,
    toList_targetText] at h
  obtain ⟨hvalue, htarget⟩ := int_append_inj (by simp) (by simp) h
  obtain ⟨htarget, rfl⟩ := target_append_inj hs.stops ht.stops (append_cancel_left htarget)
  cases a
  cases b
  simp_all [Int64.toInt_inj]

/-- So is its default. -/
theorem default_append_inj {d e : Target}
    (h : (defaultText d).toList ++ '\n' :: s = (defaultText e).toList ++ '\n' :: t) :
    d = e ∧ s = t := by
  cases d with
  | none => cases e <;> simp_all [defaultText]
  | some b =>
    cases e with
    | none => simp [defaultText] at h
    | some c =>
      obtain ⟨hbc, hst⟩ := target_append_inj (s := '\n' :: s) (t := '\n' :: t) (by simp) (by simp)
        (by simpa [defaultText] using h)
      exact ⟨hbc, (cons.inj hst).2⟩

/-- So are all cases: a default does not start like a case. -/
theorem cases_append_inj {as bs : List Case} {d e : Target}
    (h : as.flatMap (fun c => (caseText c).toList) ++ ((defaultText d).toList ++ '\n' :: s) =
      bs.flatMap (fun c => (caseText c).toList) ++ ((defaultText e).toList ++ '\n' :: t)) :
    as = bs ∧ d = e ∧ s = t := by
  have hgap : ∀ {d : Target} {s : List Char}, Gap ((defaultText d).toList ++ '\n' :: s) := by
    intro d s
    cases d <;> simp [defaultText]
  have hend : ∀ (d : Target) (s : List Char) (c : Case) (u : List Char),
      (caseText c).toList ++ u ≠ (defaultText d).toList ++ '\n' :: s := by
    intro d s c u heq
    cases hint : c.value.toInt.repr.toList with
    | nil => cases d <;> simp_all [caseText, defaultText]
    | cons k ks =>
      have hk := int_chars (n := c.value.toInt) (hint ▸ mem_cons_self : k ∈ _)
      cases d <;> simp [caseText, defaultText, hint] at heq
      rw [heq.1] at hk
      exact absurd hk (by decide)
  obtain ⟨rfl, hrest⟩ := flatMap_append_inj (F := Gap) (fun a _ b _ s t => case_append_inj)
    (fun a s => by simp [caseText]) hgap hgap (hend d s) (hend e t) h
  exact ⟨rfl, default_append_inj hrest⟩

/-- What ends a block is known from its form and its line. -/
theorem append_inj (hkind : x.ctorIdx = y.ctorIdx)
    (h : x.word.toList ++ (x.operands.toList ++ '\n' :: s) =
      y.word.toList ++ (y.operands.toList ++ '\n' :: t)) : x = y ∧ s = t := by
  have hline : ∀ {s}, Stops ('\n' :: s) := by simp
  have hblank : ∀ {s}, Stops (' ' :: s) := by simp
  cases x <;> cases y <;> cases hkind <;>
    simp only [word, operands, append_cancel_left_eq, String.toList_append, append_assoc,
      toList_varsText, toList_targetText] at h
  case ret v w =>
    obtain ⟨hv, hst⟩ := vars_line_inj h
    simp_all
  case jump b args c args' =>
    have hgap : ∀ {vs : List Var} {s}, Gap (varsChars vs ++ '\n' :: s) := Gap.vars (by simp)
    obtain ⟨rfl, hargs⟩ := target_append_inj hgap.stops hgap.stops h
    obtain ⟨rfl, hst⟩ := vars_line_inj hargs
    exact ⟨rfl, hst⟩
  case branch c a b c' a' b' =>
    simp [varsChars] at h
    obtain ⟨rfl, ha⟩ := var_append_inj hblank hblank h
    obtain ⟨rfl, hb⟩ := target_append_inj hblank hblank (cons.inj ha).2
    obtain ⟨rfl, hst⟩ := target_append_inj hline hline (cons.inj hb).2
    simp_all
  case switch v cases d w cases' e =>
    have hgap : ∀ {cs : List Case} {d : Target} {s : List Char}, Stops
        (cs.flatMap (fun c => (caseText c).toList) ++ ((defaultText d).toList ++ '\n' :: s)) := by
      intro cs d s
      cases cs <;> cases d <;> simp [caseText, defaultText]
    simp [varsChars, flatMap_map] at h
    obtain ⟨rfl, hcases⟩ := var_append_inj hgap hgap h
    obtain ⟨rfl, rfl, rfl⟩ := cases_append_inj hcases
    exact ⟨rfl, rfl⟩
  case unreachable => simpa using h

end Term

namespace Line

variable {x y : Instr}

/-- An instruction is known from its form, what it defines and its line. -/
theorem instr_append_inj (hp : p.Canonical) (hw : Worded p) (hS : S.InjOn Numeral.floatText)
    (hx : Legible p S types (.inl x)) (hy : Legible p S types (.inl y)) (hdef : x.def? = y.def?)
    (hkind : x.ctorIdx = y.ctorIdx)
    (h : x.word.toList ++ ((x.operands p).toList ++ '\n' :: s) =
      y.word.toList ++ ((y.operands p).toList ++ '\n' :: t)) : x = y ∧ s = t := by
  have hline : ∀ {s}, Stops ('\n' :: s) := by simp
  have hblank : ∀ {s}, Stops (' ' :: s) := by simp
  have hdot : ∀ {s}, Stops ('.' :: s) := by simp
  have hgap : ∀ {vs : List Var} {s}, Gap (varsChars vs ++ '\n' :: s) := Gap.vars (by simp)
  cases x <;> cases y <;> cases hkind <;>
    simp only [Instr.def?, Option.some.injEq, Instr.word, Instr.operands, append_cancel_left_eq,
      String.toList_append, append_assoc, toList_varsText] at hdef h
  case lit dst v dst' w =>
    obtain ⟨⟨a, ha, hv⟩, hvS⟩ := hx
    obtain ⟨⟨b, hb, hw⟩, hwS⟩ := hy
    obtain rfl := Option.some.inj ((hdef ▸ ha).symm.trans hb)
    obtain ⟨rfl, hst⟩ := literal_append_inj (by simpa using hv.symm.trans hw)
      (fun x y hx hy => hS (hvS x hx) (hwS y hy)) (by simpa using h)
    simp_all
  case prim dst op args dst' op' args' =>
    obtain ⟨rfl, hargs⟩ := (primOps_words _ hx).1.append_inj (primOps_words _ hy).1 hgap.noWord
      hgap.noWord h
    obtain ⟨rfl, hst⟩ := vars_line_inj hargs
    simp_all
  case call dst f args tail dst' g args' tail' =>
    have hend : ∀ {tail : Bool} {s},
        Gap ((if tail = true then " tail" else "").toList ++ '\n' :: s) ∧
        Closes ((if tail = true then " tail" else "").toList ++ '\n' :: s) := by
      intro tail s
      cases tail <;> simp [Closes]
    obtain ⟨rfl, hargs⟩ := IsWord.append_inj hx hy hend.1.vars.noWord hend.1.vars.noWord h
    obtain ⟨rfl, htail⟩ := vars_append_inj hend.2 hend.2 hargs
    cases tail <;> cases tail' <;> simp_all
  case closure dst f args dst' g args' =>
    obtain ⟨rfl, hargs⟩ := IsWord.append_inj hx hy hgap.noWord hgap.noWord h
    obtain ⟨rfl, hst⟩ := vars_line_inj hargs
    simp_all
  case construct dst a v args dst' b w args' =>
    obtain ⟨rfl, rfl, hargs⟩ := variant_append_inj hp hw hx hy hgap hgap h
    obtain ⟨rfl, hst⟩ := vars_line_inj hargs
    simp_all
  case reuse dst token a v args dst' token' b w args' =>
    simp [varsChars] at h
    obtain ⟨rfl, hvariant⟩ := var_append_inj hblank hblank h
    obtain ⟨rfl, rfl, hargs⟩ := variant_append_inj hp hw hx hy hgap hgap (cons.inj hvariant).2
    obtain ⟨rfl, hst⟩ := vars_line_inj hargs
    simp_all
  case project dst src v i dst' src' w j =>
    simp [varsChars] at h
    obtain ⟨rfl, hvariant⟩ := var_append_inj hdot hdot h
    obtain ⟨rfl, hfield⟩ := int_append_inj hdot hdot (cons.inj hvariant).2
    obtain ⟨rfl, hst⟩ := int_append_inj hline hline (cons.inj hfield).2
    simp_all
  case set v i value w j value' =>
    simp [varsChars] at h
    obtain ⟨rfl, hfield⟩ := var_append_inj hdot hdot h
    obtain ⟨rfl, hvalue⟩ := int_append_inj hblank hblank (cons.inj hfield).2
    obtain ⟨rfl, hst⟩ := var_append_inj hline hline (by simpa using hvalue)
    simp_all
  case setTag v m w n =>
    simp [varsChars] at h
    obtain ⟨rfl, htag⟩ := var_append_inj hblank hblank h
    obtain ⟨rfl, hst⟩ := int_append_inj hline hline (by simpa using htag)
    simp_all
  all_goals
    obtain ⟨hargs, hst⟩ := vars_line_inj h
    simp_all

/-- A line is known from its text. -/
theorem append_inj {x y : Line} (hp : p.Canonical) (hw : Worded p)
    (hS : S.InjOn Numeral.floatText) (hx : x.Legible p S types) (hy : y.Legible p S types)
    (h : (x.text p).toList ++ '\n' :: s = (y.text p).toList ++ '\n' :: t) : x = y ∧ s = t := by
  have hstart : ∀ {x : Line} {s : List Char}, x.def? = none →
      ∀ v u, varChars v ++ u ≠ x.word.toList ++ s := by
    intro x s hx v u
    rcases x with x | _ | x
    · cases x <;> cases hx <;> simp [word, Instr.word, varChars]
    · simp [word, varChars]
    · cases x <;> simp [word, Term.word, varChars]
  have hblank : ∀ {s}, Stops (" = ".toList ++ s) := by simp
  obtain ⟨hdef, hrest⟩ : x.def? = y.def? ∧
      x.word.toList ++ ((x.operands p).toList ++ '\n' :: s) =
        y.word.toList ++ ((y.operands p).toList ++ '\n' :: t) := by
    rw [toList_text, toList_text] at h
    cases hdx : x.def? with
    | none =>
      cases hdy : y.def? with
      | none => exact ⟨rfl, by simpa [hdx, hdy] using h⟩
      | some w =>
        simp only [hdx, hdy, append_assoc, nil_append] at h
        exact absurd h.symm (hstart hdx w _)
    | some v =>
      cases hdy : y.def? with
      | none =>
        simp only [hdx, hdy, append_assoc, nil_append] at h
        exact absurd h (hstart hdy v _)
      | some w =>
        simp only [hdx, hdy, append_assoc] at h
        obtain ⟨rfl, hrest⟩ := var_append_inj hblank hblank h
        exact ⟨rfl, append_cancel_left hrest⟩
  have hkind : x.kind = y.kind := by rw [← kindOf_line hx, hrest, kindOf_line hy]
  have hfew : ∀ x : Instr, x.ctorIdx < 16 := by
    intro x
    cases x <;> simp [Instr.ctorIdx]
  rcases x with x | _ | x <;> rcases y with y | _ | y
  case inl.inl =>
    obtain ⟨rfl, hst⟩ := instr_append_inj hp hw hS hx hy hdef hkind hrest
    exact ⟨rfl, hst⟩
  case inr.none.inr.none => exact ⟨rfl, by simpa [word, operands] using hrest⟩
  case inr.some.inr.some =>
    obtain ⟨rfl, hst⟩ := Term.append_inj (Nat.add_left_cancel hkind) hrest
    exact ⟨rfl, hst⟩
  all_goals
    simp only [kind] at hkind
    grind

end Line

end Ir

end RefCount
