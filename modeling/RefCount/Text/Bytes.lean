/-
Byte strings. Source text, string literals, string values and the printed
output of a run are bytes, which need not be well-formed text; names are
`String`s. `Bytes.chars` is the view that joins the two: it reads a byte
string as UTF-8 and keeps each byte that begins no well-formed character.
-/
namespace RefCount

/-- A byte string. -/
abbrev Bytes := List UInt8

namespace Text

-- ======== one character at a time

/-- A byte that continues a multi-byte character. -/
def isTail (b : UInt8) : Bool := 0x80 ≤ b && b ≤ 0xBF

/-- The six payload bits of a continuation byte. -/
def tailBits (b : UInt8) : Nat := b.toNat % 0x40

/-- The range that the second byte of a character must lie in, by its first
byte: it excludes overlong forms, surrogates and values above `0x10FFFF`. -/
def secondRange (b : UInt8) : UInt8 × UInt8 :=
  if b = 0xE0 then (0xA0, 0xBF)
  else if b = 0xED then (0x80, 0x9F)
  else if b = 0xF0 then (0x90, 0xBF)
  else if b = 0xF4 then (0x80, 0x8F)
  else (0x80, 0xBF)

/-- Whether `c` may follow the first byte `b`. -/
def isSecond (b c : UInt8) : Bool :=
  (secondRange b).1 ≤ c && c ≤ (secondRange b).2

/-- The character that a byte string begins with, and its width in bytes.
Nothing is decoded from an empty string or from ill-formed UTF-8. -/
def decodeChar? : Bytes → Option (Char × Nat)
  | [] => none
  | b :: rest =>
    if b < 0x80 then some (Char.ofNat b.toNat, 1)
    else if 0xC2 ≤ b && b ≤ 0xDF then
      match rest with
      | c :: _ =>
        if isTail c then some (Char.ofNat (b.toNat % 0x20 * 0x40 + tailBits c), 2) else none
      | [] => none
    else if 0xE0 ≤ b && b ≤ 0xEF then
      match rest with
      | c :: d :: _ =>
        if isSecond b c && isTail d then
          some (Char.ofNat (b.toNat % 0x10 * 0x1000 + tailBits c * 0x40 + tailBits d), 3)
        else none
      | _ => none
    else if 0xF0 ≤ b && b ≤ 0xF4 then
      match rest with
      | c :: d :: e :: _ =>
        if isSecond b c && isTail d && isTail e then
          some (Char.ofNat
            (b.toNat % 8 * 0x40000 + tailBits c * 0x1000 + tailBits d * 0x40 + tailBits e), 4)
        else none
      | _ => none
    else none

/-- The character that is written for a byte that is not well-formed UTF-8. -/
def replacement : Char := Char.ofNat 0xFFFD

end Text

namespace Bytes

/-- The UTF-8 bytes of a text. -/
def ofString (s : String) : Bytes := s.toUTF8.data.toList

/-- The UTF-8 bytes of one character. -/
def ofChar (c : Char) : Bytes := ofString c.toString

-- ======== the text view

/-- The characters of a byte string in order; a byte that begins no
well-formed character stands for itself. -/
def chars : Bytes → List (UInt8 ⊕ Char)
  | [] => []
  | b :: rest =>
    match Text.decodeChar? (b :: rest) with
    | some (c, width) => .inr c :: chars (rest.drop (width - 1))
    | none => .inl b :: chars rest
termination_by bs => bs.length
decreasing_by
  · simp only [List.length_drop, List.length_cons]; omega
  · simp

/-- The text of a byte string, if it is well-formed UTF-8. -/
def toString? (bs : Bytes) : Option String :=
  (bs.chars.mapM Sum.getRight?).map String.ofList

/-- The text of a byte string, each ill-formed byte replaced. -/
def toText (bs : Bytes) : String :=
  String.ofList (bs.chars.map (Sum.elim (fun _ => Text.replacement) id))

end Bytes
end RefCount
