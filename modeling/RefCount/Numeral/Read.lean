/-
Reading numbers. Integers are a sign and decimal digits and must fit 64 bits.
Doubles are decimal, with an optional fraction and exponent, or hexadecimal
with a binary exponent; `inf`, `infinity` and `nan` are read in any case; an
underscore may stand between two digits. A double is the one nearest to the
written value, and it is an error if that is out of range.

Only so many digits before the point have a place of their own. Where there
are more, and the first digits do not settle the double, the digits beyond
count as a fraction of the last place that there is.
-/
import RefCount.Text.Bytes
import RefCount.Text.Quoted
import RefCount.Numeral.Estimate

namespace RefCount.Numeral

open Text (hexDigit?)

/-- Why a text is not a number. -/
inductive NumeralError where
  | malformed
  | outOfRange
  deriving DecidableEq, Repr

def NumeralError.message : NumeralError → String
  | .malformed => "invalid syntax"
  | .outOfRange => "value out of range"

-- ======== digits

def decimalDigit? (b : UInt8) : Option Nat :=
  if 48 ≤ b && b ≤ 57 then some (b.toNat - 48) else none

/-- The values of the leading digits of a text, and what follows them. -/
def takeDigits (digit? : UInt8 → Option Nat) : Bytes → List Nat × Bytes
  | [] => ([], [])
  | b :: rest =>
    match digit? b with
    | some d => let (ds, after) := takeDigits digit? rest; (d :: ds, after)
    | none => ([], b :: rest)

/-- The number with the given digits. -/
def ofDigits (base : Nat) (ds : List Nat) : Nat := ds.foldl (fun n d => n * base + d) 0

/-- An optional sign: whether it is a minus, and what follows it. -/
def takeSign : Bytes → Bool × Bytes
  | 43 :: rest => (false, rest)
  | 45 :: rest => (true, rest)
  | bs => (false, bs)

-- ======== integers

/-- The integer that a text writes, if it is one. -/
def readInt (bs : Bytes) : Except NumeralError Int64 :=
  let (negative, body) := takeSign bs
  match takeDigits decimalDigit? body with
  | ([], _) => .error .malformed
  | (ds, []) =>
    let n := ofDigits 10 ds
    if negative then
      if n ≤ Nat.pow 2 63 then .ok (Int64.ofInt (-(n : Int))) else .error .outOfRange
    else if n < Nat.pow 2 63 then .ok (Int64.ofInt n) else .error .outOfRange
  | (_, _ :: _) => .error .malformed

-- ======== doubles

/-- An ASCII letter in lower case. -/
def lowered (b : UInt8) : UInt8 := if 65 ≤ b && b ≤ 90 then b + 32 else b

/-- The special values, which have names. -/
def named? (bs : Bytes) : Option Float :=
  let (negative, body) := takeSign bs
  let name := body.map lowered
  if name = Bytes.ofString "inf" ∨ name = Bytes.ofString "infinity" then
    some (ofCode negative infinityCode)
  else if bs.map lowered = Bytes.ofString "nan" then some (0.0 / 0.0)
  else none

/-- What the last character before an underscore was. -/
inductive Before where
  | digit
  | underscore
  | other
  deriving DecidableEq

/-- Whether each underscore of a text stands between two digits. -/
def underscoresBetween (isDigit : UInt8 → Bool) : Before → Bytes → Bool
  | before, [] => before != .underscore
  | before, b :: rest =>
    if isDigit b then underscoresBetween isDigit .digit rest
    else if b = 95 then before == .digit && underscoresBetween isDigit .underscore rest
    else before != .underscore && underscoresBetween isDigit .other rest

/-- Whether a text, after its sign, begins with `0x`. -/
def hexMarked : Bytes → Bool
  | 48 :: x :: _ => lowered x = 120
  | _ => false

/-- Whether the underscores of a numeral without its sign are well placed;
the mark of a hexadecimal numeral counts as a digit. -/
def underscoresPlaced (body : Bytes) : Bool :=
  if hexMarked body then
    underscoresBetween (fun b => (hexDigit? b).isSome) .digit (body.drop 2)
  else underscoresBetween (fun b => (decimalDigit? b).isSome) .other body

/-- The digits of the whole and of the fraction, and what follows them. -/
def takeMantissa (digit? : UInt8 → Option Nat) (bs : Bytes) : List Nat × List Nat × Bytes :=
  match takeDigits digit? bs with
  | (whole, 46 :: rest) =>
    let (fraction, after) := takeDigits digit? rest
    (whole, fraction, after)
  | (whole, after) => (whole, [], after)

/-- An exponent, which stops growing once it is beyond every use. -/
def exponentOf (ds : List Nat) : Nat :=
  ds.foldl (fun e d => if e < 10000 then e * 10 + d else e) 0

/-- The exponent that follows a mantissa up to the end of the text. -/
def readExponent? (bs : Bytes) : Option Int :=
  let (negative, body) := takeSign bs
  match takeDigits decimalDigit? body with
  | (d :: ds, []) =>
    let e : Int := exponentOf (d :: ds)
    some (if negative then -e else e)
  | _ => none

/-- The exponent after a mantissa: absent if the text ends, and otherwise
introduced by the given lower-case letter. -/
def exponentPart? (letter : UInt8) : Bytes → Option (Option Int)
  | [] => some none
  | b :: rest => if lowered b = letter then (readExponent? rest).map some else none

/-- How many digits before the point have a place of their own. -/
def wholePlaces : Nat := 800

/-- The code of the double that the first nineteen digits of a long numeral
settle, whatever the others are; the last of its digits counts `10 ^ e`. -/
def settled? (digits : List Nat) (e : Int) : Option Nat :=
  let rest := digits.drop 19
  let m := ofDigits 10 (digits.take 19)
  let e := e + (rest.length : Int)
  match estimate? m e with
  | none => none
  | some code =>
    if rest.all (· = 0) ∨ estimate? (m + 1) e = some code then some code else none

/-- The double for digits before and after the point, times `10 ^ e`, unless
it is out of range. -/
def decimal? (negative : Bool) (whole fraction : List Nat) (e : Int) : Option Float :=
  let whole := whole.dropWhile (· = 0)
  let digits := whole ++ fraction
  let e := e - (fraction.length : Int)
  let beyond := whole.length - wholePlaces
  let settled := if beyond = 0 then none else settled? digits e
  match settled with
  | some code => some (ofCode negative code)
  | none => nearestDecimal? negative (ofDigits 10 digits) (e - (beyond : Int))

/-- A decimal numeral without its sign. -/
def readDecimal (negative : Bool) (body : Bytes) : Except NumeralError Float :=
  let (whole, fraction, after) := takeMantissa decimalDigit? body
  if whole.isEmpty && fraction.isEmpty then .error .malformed
  else match exponentPart? 101 after with
    | none => .error .malformed
    | some e =>
      match decimal? negative whole fraction (e.getD 0) with
      | some x => .ok x
      | none => .error .outOfRange

/-- A hexadecimal numeral without its sign and mark; it has an exponent. -/
def readHex (negative : Bool) (body : Bytes) : Except NumeralError Float :=
  let (whole, fraction, after) := takeMantissa hexDigit? body
  if whole.isEmpty && fraction.isEmpty then .error .malformed
  else match exponentPart? 112 after with
    | some (some e) =>
      match nearestBinary? negative (ofDigits 16 (whole ++ fraction))
          (e - 4 * (fraction.length : Int)) with
      | some x => .ok x
      | none => .error .outOfRange
    | _ => .error .malformed

/-- The double that a text writes, if it is one. -/
def readFloat (bs : Bytes) : Except NumeralError Float :=
  match named? bs with
  | some x => .ok x
  | none =>
    let (negative, body) := takeSign bs
    if body.contains 95 && !underscoresPlaced body then .error .malformed
    else
      let plain := body.filter (· ≠ 95)
      if hexMarked plain then readHex negative (plain.drop 2) else readDecimal negative plain

end RefCount.Numeral
