/-
Quoted text. A byte string is written between double quotes: printable
characters as they are, the usual control characters by a letter, other
characters by their code point, and bytes that are not well-formed UTF-8 by
their value. Reading accepts those escapes and octal ones, and refuses a raw
line break.
-/
import RefCount.Text.Bytes
import RefCount.Text.Printable

namespace RefCount.Text

-- ======== writing

/-- The lower-case hexadecimal digits of `n`, padded with zeros to `width`. -/
def hexPadded (width n : Nat) : String :=
  let digits := Nat.toDigits 16 n
  String.ofList (List.replicate (width - digits.length) '0' ++ digits)

/-- The letter that stands for a control character after a backslash. -/
def controlLetter? (c : Char) : Option Char :=
  match c.toNat with
  | 7 => some 'a'
  | 8 => some 'b'
  | 9 => some 't'
  | 10 => some 'n'
  | 11 => some 'v'
  | 12 => some 'f'
  | 13 => some 'r'
  | _ => none

/-- One character inside quotes. -/
def quoteChar (c : Char) : String :=
  if c = '"' || c = '\\' then "\\" ++ c.toString
  else if isPrintable c then c.toString
  else match controlLetter? c with
    | some l => "\\" ++ l.toString
    | none =>
      if c.toNat < 0x20 || c.toNat = 0x7f then "\\x" ++ hexPadded 2 c.toNat
      else if c.toNat < 0x10000 then "\\u" ++ hexPadded 4 c.toNat
      else "\\U" ++ hexPadded 8 c.toNat

/-- One byte that begins no well-formed character, inside quotes. -/
def quoteByte (b : UInt8) : String := "\\x" ++ hexPadded 2 b.toNat

/-- A byte string between double quotes. -/
def quote (bs : Bytes) : String :=
  "\"" ++ String.join (bs.chars.map (Sum.elim quoteByte quoteChar)) ++ "\""

-- ======== reading

/-- The value of a hexadecimal digit of either case. -/
def hexDigit? (b : UInt8) : Option Nat :=
  if 48 ≤ b && b ≤ 57 then some (b.toNat - 48)
  else if 97 ≤ b && b ≤ 102 then some (b.toNat - 87)
  else if 65 ≤ b && b ≤ 70 then some (b.toNat - 55)
  else none

def octalDigit? (b : UInt8) : Option Nat :=
  if 48 ≤ b && b ≤ 55 then some (b.toNat - 48) else none

/-- The number written by exactly `count` leading digits of a base. -/
def leadingDigits? (digit? : UInt8 → Option Nat) (base count : Nat) (bs : Bytes) : Option Nat :=
  if bs.length < count then none
  else (bs.take count).foldlM (fun n b => (digit? b).map (n * base + ·)) 0

/-- The bytes that the escape after a backslash stands for, and its length
without the backslash. -/
def escape? : Bytes → Option (Bytes × Nat)
  | [] => none
  | k :: rest =>
    match Char.ofNat k.toNat with
    | 'a' => some ([7], 1)
    | 'b' => some ([8], 1)
    | 'f' => some ([12], 1)
    | 'n' => some ([10], 1)
    | 'r' => some ([13], 1)
    | 't' => some ([9], 1)
    | 'v' => some ([11], 1)
    | '\\' => some ([92], 1)
    | '"' => some ([34], 1)
    | 'x' => (leadingDigits? hexDigit? 16 2 rest).map fun n => ([n.toUInt8], 3)
    | 'u' => (leadingDigits? hexDigit? 16 4 rest).bind fun n =>
      if n.isValidChar then some (Bytes.ofChar (Char.ofNat n), 5) else none
    | 'U' => (leadingDigits? hexDigit? 16 8 rest).bind fun n =>
      if n.isValidChar then some (Bytes.ofChar (Char.ofNat n), 9) else none
    | _ => (leadingDigits? octalDigit? 8 3 (k :: rest)).bind fun n =>
      if n < 256 then some ([n.toUInt8], 3) else none

/-- The byte string written between two quotes. A raw line break, a raw quote
and an unknown escape are refused; a raw byte that is not well-formed UTF-8
reads as the replacement character. -/
def unquote? : Bytes → Option Bytes
  | [] => some []
  | b :: rest =>
    if b = 10 || b = 34 then none
    else if b = 92 then
      match escape? rest with
      | some (bs, width) => (unquote? (rest.drop width)).map (bs ++ ·)
      | none => none
    else match decodeChar? (b :: rest) with
      | some (c, width) => (unquote? (rest.drop (width - 1))).map (Bytes.ofChar c ++ ·)
      | none => (unquote? rest).map (Bytes.ofChar replacement ++ ·)
termination_by bs => bs.length
decreasing_by all_goals simp only [List.length_drop, List.length_cons]; omega

end RefCount.Text
