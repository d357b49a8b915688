/-
A quick estimate of a decimal. The double nearest to `m · 10 ^ e`, where `m`
has at most 64 bits, is mostly settled by the product of `m` with the leading
128 bits of `10 ^ e`. The bits cut off the power make the product too small by
less than `m`, scaled to 64 bits, so they matter only if the product lies that
close below a number with no more bits than are looked at. There is no answer
then, nor if the product may lie exactly half way between two doubles, nor
outside the range of normal doubles.
-/
import RefCount.Numeral.Nearest

namespace RefCount.Numeral

/-- The place of the leading bit of `10 ^ e`. -/
def powerPlace (e : Int) : Int :=
  if 0 ≤ e then Nat.log2 (Nat.pow 10 e.toNat)
  else -(Nat.log2 (Nat.pow 10 (-e).toNat) : Int) - 1

/-- The leading 128 bits of `10 ^ e`. -/
def powerBits (e : Int) : Nat :=
  let (n, d) := inUnits (Nat.pow 10 e.toNat) (Nat.pow 10 (-e).toNat) (powerPlace e - 127)
  n / d

/-- The leading 128 bits of a product of a 64-bit number with 128 bits. The
lower half of the second number is left out unless it may carry over into the
bits of a double. -/
def leadingProduct (w p : Nat) : Nat :=
  let coarse := w * (p / Nat.pow 2 64)
  if Nat.pow 2 73 ≤ coarse % Nat.pow 2 73 + w then w * p / Nat.pow 2 64 else coarse

/-- Whether bits cut off the second factor may carry over into the bits of a
double. -/
def mayCarry (w p : Nat) : Bool := Nat.pow 2 137 ≤ w * p % Nat.pow 2 137 + w

/-- The code of the double nearest to `m · 10 ^ e`, for `0 < m < 2 ^ 64`, if
the estimate settles it. The product has a bit more than a double, and that
bit decides the rounding. -/
def estimate? (m : Nat) (e : Int) : Option Nat :=
  if e < -348 ∨ 347 < e then none
  else
    let shift := 63 - Nat.log2 m
    let w := m * Nat.pow 2 shift
    let product := leadingProduct w (powerBits e)
    let top := product / Nat.pow 2 127
    let n := product / Nat.pow 2 (73 + top)
    let exponent : Int := powerPlace e + 1086 + top - shift
    let code : Int := (exponent - 1) * Nat.pow 2 52 + ((n + n % 2) / 2 : Nat)
    if mayCarry w (powerBits e) ∨ (product % Nat.pow 2 73 = 0 ∧ n % 4 = 1) then none
    else if code < Nat.pow 2 52 ∨ infinityCode ≤ code then none
    else some code.toNat

end RefCount.Numeral
