/-
The shortest decimal of a double: the fewest digits that round back to it, and
of those the nearest to it.

A positive double is `m · 2 ^ q`. The reals that round to it form an interval
around it, reaching half a unit up, and half a unit down unless the double
below is closer; the ends belong to it iff `m` is even. For one digit, two
digits and so on, the double lies between two neighbours of the decimal grid
with so many digits, and the first grid with a neighbour inside the interval
gives the digits. Everything is exact arithmetic on naturals: `a · 2 ^ (q - 2)`
is compared with `b · 10 ^ k` by cross multiplication.
-/
namespace RefCount.Numeral

-- ======== a double taken apart

/-- What a double is. -/
inductive Parts where
  | nan
  | infinite (negative : Bool)
  /-- The number `±mantissa · 2 ^ exponent`. -/
  | finite (negative : Bool) (mantissa : Nat) (exponent : Int)
  deriving DecidableEq, Repr

def parts (x : Float) : Parts :=
  let bits : Nat := x.toBits.toNat
  let negative := Nat.pow 2 63 ≤ bits
  let field : Nat := bits / Nat.pow 2 52 % 0x800
  let fraction := bits % Nat.pow 2 52
  if field = 0x7FF then (if fraction = 0 then .infinite negative else .nan)
  else if field = 0 then .finite negative fraction (-1074)
  else .finite negative (Nat.pow 2 52 + fraction) ((field : Int) - 1075)

-- ======== the grid search

/-- A decimal grid over a binary one: `a` units of `2 ^ (q - 2)` are
`a · up / down` units of `10 ^ k`. -/
structure Grid where
  up : Nat
  down : Nat
  deriving Repr

/-- The grid of step `10 ^ k` over the units of `2 ^ (q - 2)`. -/
def Grid.of (q k : Int) : Grid where
  up := Nat.pow 2 (q - 2).toNat * Nat.pow 10 (-k).toNat
  down := Nat.pow 2 (2 - q).toNat * Nat.pow 10 k.toNat

/-- The reals that round to a double, in units of `2 ^ (q - 2)`. -/
structure Interval where
  low : Nat
  mid : Nat
  high : Nat
  closed : Bool
  deriving Repr

/-- The interval of the double `m · 2 ^ q`. -/
def Interval.of (m : Nat) (q : Int) : Interval where
  low := if m = Nat.pow 2 52 ∧ -1074 < q then 4 * m - 1 else 4 * m - 2
  mid := 4 * m
  high := 4 * m + 2
  closed := m % 2 = 0

/-- Whether the `c`-th point of the grid lies in the interval. -/
def Interval.holds (i : Interval) (g : Grid) (c : Nat) : Bool :=
  if i.closed then i.low * g.up ≤ c * g.down && c * g.down ≤ i.high * g.up
  else i.low * g.up < c * g.down && c * g.down < i.high * g.up

/-- The grid point that represents the interval: of the two neighbours of its
middle the one inside, and of two the nearer, the even one if both are as
near. -/
def Interval.point? (i : Interval) (g : Grid) : Option Nat :=
  let c := i.mid * g.up / g.down
  let below := i.mid * g.up - c * g.down
  let above := (c + 1) * g.down - i.mid * g.up
  match i.holds g c, i.holds g (c + 1) with
  | true, true =>
    some (if below < above ∨ (below = above ∧ c % 2 = 0) then c else c + 1)
  | true, false => some c
  | false, true => some (c + 1)
  | false, false => none

/-- Whether `10 ^ p` is at most `m · 2 ^ q`. -/
def powerBelow (m : Nat) (q p : Int) : Bool :=
  (Grid.of q p).down ≤ 4 * m * (Grid.of q p).up

/-- The decimal exponent of the first digit of `m · 2 ^ q`, for positive `m`.
The estimate from the binary exponent is at most one off. -/
def leadingExponent (m : Nat) (q : Int) : Int :=
  let p := (q + (Nat.log2 m : Int)) * 1233 / 4096
  if powerBelow m q (p + 1) then p + 1
  else if powerBelow m q p then p
  else p - 1

/-- The shortest decimal `d · 10 ^ k` of the double `m · 2 ^ q`, for positive
`m`. Seventeen digits always suffice. -/
def shortest (m : Nat) (q : Int) : Nat × Int :=
  let p := leadingExponent m q
  let i := Interval.of m q
  let found := (List.range 17).findSome? fun (n : Nat) =>
    let k := p - (n : Int)
    (i.point? (Grid.of q k)).map (·, k)
  found.getD (m, 0)

end RefCount.Numeral
