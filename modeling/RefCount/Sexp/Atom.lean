/-
Atoms. Each reader takes the text from a position on and gives the node and
the position after it. A token that is not of the reader's kind fails at its
start; one that is, and is malformed, fails further on.
-/
import RefCount.Sexp.Grammar
import RefCount.Sexp.Blank

namespace RefCount.Sexp

open Numeral (readInt readFloat decimalDigit?)

-- ======== numbers

/-- The width of the digits, point and exponent at the start of a text, and
whether there is a point or exponent. The flags say what was seen before. -/
def numeralWidth (started point exponent : Bool) : Bytes → Nat × Bool
  | [] => (0, point || exponent)
  | b :: rest =>
    if (decimalDigit? b).isSome then
      let (n, f) := numeralWidth true point exponent rest
      (n + 1, f)
    else if !point && !exponent && b == 46 then
      let (n, f) := numeralWidth true true exponent rest
      (n + 1, f)
    else if !exponent && started && (b == 101 || b == 69) then
      match rest with
      | s :: rest' =>
        if s == 45 || s == 43 then
          let (n, f) := numeralWidth true point true rest'
          (n + 2, f)
        else
          let (n, f) := numeralWidth true point true (s :: rest')
          (n + 1, f)
      | [] => (1, true)
    else (0, point || exponent)

def signWidth : Bytes → Nat
  | b :: _ => if b == 45 || b == 43 then 1 else 0
  | [] => 0

/-- Whether a text begins with a decimal digit. -/
def startsWithDigit : Bytes → Bool
  | b :: _ => (decimalDigit? b).isSome
  | [] => false

/-- A number: a sign, digits, and at most one point and one exponent, up to a
delimiter. -/
def readNumber (pos : Nat) (bs : Bytes) : Outcome :=
  let sign := signWidth bs
  let (body, isFloat) := numeralWidth false false false (bs.drop sign)
  let width := sign + body
  if !startsWithDigit (bs.drop sign) || !delimited (bs.drop width) then
    .error ⟨pos, .numberExpected⟩
  else
    let text := bs.take width
    let span : Span := ⟨pos, pos + width⟩
    if isFloat then
      match readFloat text with
      | .ok x => .ok (.float span x, span.stop)
      | .error e => .error ⟨span.stop, .badFloat text e⟩
    else
      match readInt text with
      | .ok n => .ok (.int span n, span.stop)
      | .error e => .error ⟨span.stop, .badInt text e⟩

-- ======== strings

/-- How far a string reaches after its opening quote: to its closing quote,
or past the end of the text. -/
inductive StringEnd where
  | closed (width : Nat)
  | missing (width : Nat)
  deriving Repr

/-- A string end seen `n` bytes earlier. -/
def StringEnd.shift (n : Nat) : StringEnd → StringEnd
  | closed w => closed (w + n)
  | missing w => missing (w + n)

/-- Finds the closing quote. A backslash hides the byte after it, even if the
text ends there. -/
def stringEnd : Bytes → StringEnd
  | [] => .missing 0
  | b :: rest =>
    if b == 34 then .closed 0
    else if b == 92 then
      match rest with
      | _ :: rest' => (stringEnd rest').shift 2
      | [] => .missing 2
    else (stringEnd rest).shift 1

def readString (pos : Nat) : Bytes → Outcome
  | [] => .error ⟨pos, .stringExpected⟩
  | b :: rest =>
    if b != 34 then .error ⟨pos, .stringExpected⟩
    else match stringEnd rest with
      | .missing w => .error ⟨pos + 1 + w, .unterminatedString⟩
      | .closed w =>
        match Text.unquote? (rest.take w) with
        | some s => .ok (.str ⟨pos, pos + w + 2⟩ s, pos + w + 2)
        | none => .error ⟨pos + w + 2, .malformedString⟩

-- ======== symbols

/-- Why a symbol is refused, and how many bytes into it. -/
inductive SymbolStop where
  | quote
  | character (width : Nat)
  deriving Repr

/-- The number of bytes up to the next delimiter, if they are characters other
than quotes. -/
def symbolWidth : Bytes → Except SymbolStop Nat
  | [] => .ok 0
  | b :: rest =>
    if isDelimiter b then .ok 0
    else if b == 34 then .error .quote
    else match Text.decodeChar? (b :: rest) with
      | some (c, width) =>
        if c = Text.replacement then .error (.character 0)
        else match symbolWidth (rest.drop (width - 1)) with
          | .ok n => .ok (n + width)
          | .error (.character n) => .error (.character (n + width))
          | .error .quote => .error .quote
      | none => .error (.character 0)
termination_by bs => bs.length
decreasing_by simp only [List.length_drop, List.length_cons]; omega

/-- A symbol: the characters up to the next delimiter, of which there must be
one. -/
def readSymbol (pos : Nat) (bs : Bytes) : Outcome :=
  match symbolWidth bs with
  | .error .quote => .error ⟨pos, .quoteInSymbol⟩
  | .error (.character n) => .error ⟨pos + n, .badCharacter⟩
  | .ok 0 => .error ⟨pos, .symbolExpected⟩
  | .ok n => .ok (.ident ⟨pos, pos + n⟩ (Bytes.toText (bs.take n)), pos + n)

/-- Exactly the given bytes. -/
def readConstant (text : Bytes) (pos : Nat) (bs : Bytes) : Outcome :=
  if text.isPrefixOf bs then
    .ok (.ident ⟨pos, pos + text.length⟩ (Bytes.toText text), pos + text.length)
  else .error ⟨pos, .constantExpected text⟩

-- ======== alternatives

/-- Tries readers in order. Failures at the start are forgotten; of the
others the first is reported, unless a later reader succeeds. -/
def firstOf (all : List Grammar) (pos : Nat) :
    List (Grammar × Outcome) → Option Failure → Outcome
  | [], some f => .error f
  | [], none => .error ⟨pos, .noneOf all⟩
  | (_, .ok r) :: _, _ => .ok r
  | (g, .error f) :: rest, seen =>
    firstOf all pos rest
      (seen.or (if f.pos = pos then none else some ⟨f.pos, .inAlternative g f.error⟩))

/-- An atom: a number, a string or a symbol. -/
def readAtom (pos : Nat) (bs : Bytes) : Outcome :=
  firstOf [.num, .str, .symbol] pos
    [(.num, readNumber pos bs), (.str, readString pos bs), (.symbol, readSymbol pos bs)] none

end RefCount.Sexp
