/-
Rounding an exact fraction to a double. The value is scaled to an integer of
53 bits (fewer below the normal range), rounded half to even, and encoded by
one formula: with unit `2 ^ e` and integer part `n`, the code of the double is
`(e + 1074) · 2 ^ 52 + n`, whether the double is normal or not, and a carry of
the rounding into the exponent comes out right by itself.
-/
namespace RefCount.Numeral

/-- The quotient `n / d` rounded to the nearest integer, a half to even. -/
def roundHalfEven (n d : Nat) : Nat :=
  let q := n / d
  let r := n % d
  if 2 * r < d then q
  else if d < 2 * r then q + 1
  else q + q % 2

/-- The fraction `num / den` in units of `2 ^ e`. -/
def inUnits (num den : Nat) (e : Int) : Nat × Nat :=
  if 0 ≤ e then (num, den * Nat.pow 2 e.toNat) else (num * Nat.pow 2 (-e).toNat, den)

/-- The exponent of the unit in which `num / den` has 53 bits, and at least
the exponent of the smallest double. -/
def unitExponent (num den : Nat) : Int :=
  let e : Int := (Nat.log2 num : Int) - (Nat.log2 den : Int) - 53
  let (n, d) := inUnits num den e
  max (-1074) (if Nat.pow 2 53 ≤ n / d then e + 1 else e)

/-- The code of infinity, which is also the first code that no finite double
has. -/
def infinityCode : Nat := 0x7FF * Nat.pow 2 52

/-- The double with the given sign and the given code of its magnitude. -/
def ofCode (negative : Bool) (code : Nat) : Float :=
  Float.ofBits ((if negative then Nat.pow 2 63 + code else code).toUInt64)

/-- The double nearest to `±num / den`, unless that is out of range. -/
def nearest? (negative : Bool) (num den : Nat) : Option Float :=
  if num = 0 then some (ofCode negative 0)
  else
    let e := unitExponent num den
    let (n, d) := inUnits num den e
    let code := (e + 1074).toNat * Nat.pow 2 52 + roundHalfEven n d
    if code < infinityCode then some (ofCode negative code) else none

/-- The double nearest to `±m · 10 ^ e`, unless that is out of range. Values
far outside the range are decided by their number of digits. -/
def nearestDecimal? (negative : Bool) (m : Nat) (e : Int) : Option Float :=
  let magnitude := (Nat.toDigits 10 m).length + e
  if m = 0 ∨ magnitude < -330 then some (ofCode negative 0)
  else if 310 < magnitude then none
  else if 0 ≤ e then nearest? negative (m * Nat.pow 10 e.toNat) 1
  else nearest? negative m (Nat.pow 10 (-e).toNat)

/-- The double nearest to `±m · 2 ^ e`, unless that is out of range. -/
def nearestBinary? (negative : Bool) (m : Nat) (e : Int) : Option Float :=
  let magnitude := (Nat.log2 m : Int) + e
  if m = 0 ∨ magnitude < -1080 then some (ofCode negative 0)
  else if 1030 < magnitude then none
  else if 0 ≤ e then nearest? negative (m * Nat.pow 2 e.toNat) 1
  else nearest? negative m (Nat.pow 2 (-e).toNat)

end RefCount.Numeral
