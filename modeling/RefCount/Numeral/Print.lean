/-
The text of a double. The digits are the shortest that read back; they are
written in positional form, or with an exponent of a sign and at least two
digits if the number is below `10 ^ -4` or at least `10 ^ 6` in magnitude.
-/
import RefCount.Numeral.Shortest

namespace RefCount.Numeral

/-- The least exponent that is written in positional form. -/
def minPositional : Int := -4

/-- The least positive exponent that is written in exponent form. -/
def minScientific : Int := 6

/-- A list of digits without the zeros at its end. -/
def trimZeros (ds : List Char) : List Char :=
  (ds.reverse.dropWhile (· = '0')).reverse

/-- `d.ddd` with exponent `e` of the first digit. -/
def scientific (ds : List Char) (e : Int) : String :=
  let fraction := if ds.length ≤ 1 then [] else '.' :: ds.drop 1
  let digits := Nat.toDigits 10 e.natAbs
  let padded := if digits.length < 2 then '0' :: digits else digits
  String.ofList (ds.take 1 ++ fraction ++ ['e', if e < 0 then '-' else '+'] ++ padded)

/-- The digits with a point in place, `e` being the exponent of the first. -/
def positional (ds : List Char) (e : Int) : String :=
  if e < 0 then
    String.ofList ("0.".toList ++ List.replicate (-e - 1).toNat '0' ++ ds)
  else
    let width := e.toNat + 1
    let whole := ds.take width ++ List.replicate (width - ds.length) '0'
    let fraction := ds.drop width
    String.ofList (if fraction.isEmpty then whole else whole ++ '.' :: fraction)

/-- The text of a positive double `m · 2 ^ q`. -/
def magnitudeText (m : Nat) (q : Int) : String :=
  let (d, k) := shortest m q
  let digits := Nat.toDigits 10 d
  let e := k + (digits.length : Int) - 1
  let ds := trimZeros digits
  if e < minPositional ∨ minScientific ≤ e then scientific ds e else positional ds e

def floatText (x : Float) : String :=
  match parts x with
  | .nan => "NaN"
  | .infinite negative => if negative then "-Inf" else "+Inf"
  | .finite negative m q =>
    (if negative then "-" else "") ++ (if m = 0 then "0" else magnitudeText m q)

end RefCount.Numeral
