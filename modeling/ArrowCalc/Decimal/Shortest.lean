import ArrowCalc.Decimal.Basic

/-!
# Shortest decimals

The shortest decimal of a positive double is the one with the fewest digits among the decimals that
round to it, and the nearest one among those.

A double is a significand times a power of two. The reals that round to it form an interval around
it, whose ends belong to it exactly when the significand is even. For a power of ten `10 ^ e` the
multiples of `10 ^ e` form a grid; the coarsest grid with a point in the interval gives the shortest
decimal, and on it only the two neighbours of the double have to be tried.

All comparisons are between natural numbers.
-/

namespace ArrowCalc

/-- The positive double `significand * 2 ^ exponent`. The gap to the next smaller double is half as
wide as the one to the next larger double when `narrow` holds, that is at a power of two. -/
structure Binary where
  significand : Nat
  exponent : Int
  narrow : Bool

namespace Binary

/-- The magnitude of a finite double, from its bit pattern. -/
def ofBits (bits : Nat) : Binary :=
  let fraction := bits % 4503599627370496
  let biased := bits / 4503599627370496 % 2048
  if biased = 0 then ⟨fraction, -1074, false⟩
  else ⟨fraction + 4503599627370496, (biased : Int) - 1075, fraction = 0 ∧ 1 < biased⟩

/-! ### The rounding interval

Measured in quarters of `2 ^ exponent`, the double and the ends of its interval are natural
numbers. -/

/-- The double itself, in quarters. -/
def middle (x : Binary) : Nat := 4 * x.significand

/-- The lower end of the interval, in quarters. -/
def lower (x : Binary) : Nat := if x.narrow then x.middle - 1 else x.middle - 2

/-- The upper end of the interval, in quarters. -/
def upper (x : Binary) : Nat := x.middle + 2

/-- The factor that turns a multiple of `10 ^ e` into the unit in which `quarterUnit` measures. -/
def gridUnit (x : Binary) (e : Int) : Nat :=
  Nat.pow 10 e.toNat * Nat.pow 2 (2 - x.exponent).toNat

/-- The factor that turns quarters of `2 ^ exponent` into the unit in which `gridUnit` measures. -/
def quarterUnit (x : Binary) (e : Int) : Nat :=
  Nat.pow 10 (-e).toNat * Nat.pow 2 (x.exponent - 2).toNat

/-- Whether `c * 10 ^ e` rounds to the double. -/
def covers (x : Binary) (e : Int) (c : Nat) : Bool :=
  let point := c * x.gridUnit e
  let low := x.lower * x.quarterUnit e
  let high := x.upper * x.quarterUnit e
  if x.significand % 2 = 0 then low ≤ point ∧ point ≤ high else low < point ∧ point < high

/-- The largest multiple of `10 ^ e` that is not above the double, as a multiple. -/
def below (x : Binary) (e : Int) : Nat := x.middle * x.quarterUnit e / x.gridUnit e

/-! ### The search -/

/-- The nearest multiple of `10 ^ e` that rounds to the double, if there is one. Of two equally near
neighbours the larger one is taken. -/
def onGrid? (x : Binary) (e : Int) : Option Decimal :=
  let c := x.below e
  match x.covers e c, x.covers e (c + 1) with
  | true, true =>
    if 2 * (x.middle * x.quarterUnit e) < (2 * c + 1) * x.gridUnit e then some ⟨c, e⟩
    else some ⟨c + 1, e⟩
  | true, false => some ⟨c, e⟩
  | false, true => some ⟨c + 1, e⟩
  | false, false => none

/-- The power of ten of the finest grid: every positive double is above `10 ^ -324`. -/
def finest : Nat := 324

/-- The number `n` with `10 ^ (n - 1) ≤ x < 10 ^ n`. -/
def magnitude (x : Binary) : Int :=
  ((Decimal.digits (x.below (-(finest : Int)))).length : Int) - finest

/-- The shortest decimal of a positive double. Seventeen digits always suffice. -/
def shortest (x : Binary) : Decimal :=
  let n := x.magnitude
  let grid (k : Nat) : Int := n - 1 - k
  ((List.range 17).findSome? fun k => x.onGrid? (grid k)).getD ⟨x.below (grid 16), grid 16⟩

end Binary

end ArrowCalc
