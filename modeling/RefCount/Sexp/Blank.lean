/-
Blanks: what may stand between two tokens. A set of space characters, all of
them below 64, and a character that begins a comment up to the end of the
line. A width is the number of bytes that are skipped.
-/
import RefCount.Text.Bytes
import RefCount.Fault

namespace RefCount.Sexp

/-- A set of space characters. -/
structure Spaces where
  chars : Bytes
  below : chars.all (· < 64) = true
  deriving Repr

namespace Spaces

/-- The set of the given characters, all of which must be below 64. -/
def of (chars : Bytes) : Except Fault Spaces :=
  if h : chars.all (· < 64) = true then .ok ⟨chars, h⟩ else .error .blank

def contains (s : Spaces) (b : UInt8) : Bool := s.chars.contains b

/-- The number of spaces that a text begins with. -/
def width (s : Spaces) (bs : Bytes) : Nat := (bs.takeWhile s.contains).length

/-- Space, tab, carriage return and line feed. -/
def all : Spaces := ⟨[32, 9, 13, 10], by decide⟩

end Spaces

/-- Spaces and line comments. -/
structure Blanks where
  spaces : Spaces
  comment : UInt8
  deriving Repr

namespace Blanks

/-- The width of the blanks at the start of a text; the flag says whether a
comment is open. A line feed closes a comment and is not part of it. -/
def widthFrom (k : Blanks) : Bool → Bytes → Nat
  | _, [] => 0
  | inComment, b :: rest =>
    if inComment && b != 10 then k.widthFrom true rest + 1
    else if k.spaces.contains b then k.widthFrom false rest + 1
    else if b == k.comment && b != 10 then k.widthFrom true rest + 1
    else 0

def width (k : Blanks) (bs : Bytes) : Nat := k.widthFrom false bs

/-- The blanks of source text: all spaces, and comments after a semicolon. -/
def source : Blanks := ⟨Spaces.all, 59⟩

end Blanks

/-- Whether a token ends before this byte. -/
def isDelimiter (b : UInt8) : Bool :=
  b == 40 || b == 41 || b == 59 || Spaces.all.contains b

/-- Whether a token may end before this text. -/
def delimited : Bytes → Bool
  | [] => true
  | b :: _ => isDelimiter b

/-- The position after the skipped part of a text, from any position on. Past
the end nothing is skipped; before the start there is no answer. -/
def skipFrom (width : Bytes → Nat) (text : Bytes) (pos : Int) : Except Fault Int :=
  if pos < 0 then .error .position
  else .ok (pos + (width (text.drop pos.toNat) : Int))

end RefCount.Sexp
