/-!
# Decimal numbers

A non-negative decimal number is a coefficient and a power of ten. It is what a decimal literal
denotes before it is rounded to a double.

`Decimal.ofText?` reads the literals `digits . digits`, with an optional exponent, and
`Decimal.toFloat` rounds to the nearest double.
-/

namespace ArrowCalc

/-- The number `coefficient * 10 ^ exponent`. -/
structure Decimal where
  coefficient : Nat
  exponent : Int
deriving DecidableEq

namespace Decimal

/-- The value of a digit in any radix up to sixteen, in either letter case. -/
def digitValue (c : Char) : Nat :=
  if c.isDigit then c.toNat - 48
  else if c.isLower then c.toNat - 87
  else c.toNat - 55

/-- The number written by `digits` in the given radix, most significant digit first. -/
def ofDigits (radix : Nat) (digits : List Char) : Nat :=
  digits.foldl (fun n c => radix * n + digitValue c) 0

@[simp] theorem ofDigits_nil (radix : Nat) : ofDigits radix [] = 0 := rfl

@[simp] theorem ofDigits_concat (radix : Nat) (ds : List Char) (c : Char) :
    ofDigits radix (ds ++ [c]) = radix * ofDigits radix ds + digitValue c := by
  simp only [ofDigits, List.foldl_append, List.foldl_cons, List.foldl_nil]

/-- The digits of a positive number, without a leading zero. -/
def digits (n : Nat) : List Char := Nat.toDigits 10 n

/-! ### Reading -/

/-- The exponent behind the digits of a literal: nothing, or `e` or `E`, an optional minus sign and
at least one digit. -/
def exponentOfText? : List Char → Option Int
  | [] => some 0
  | e :: rest =>
    if e = 'e' ∨ e = 'E' then
      match rest with
      | '-' :: ds => if ds ≠ [] ∧ ds.all Char.isDigit then some (-(ofDigits 10 ds : Int)) else none
      | ds => if ds ≠ [] ∧ ds.all Char.isDigit then some (ofDigits 10 ds) else none
    else none

/-- Reads digits, a point, digits and an optional exponent. At least one digit stands on one side of
the point. -/
def ofText? (text : List Char) : Option Decimal :=
  let whole := text.takeWhile Char.isDigit
  match text.dropWhile Char.isDigit with
  | '.' :: rest =>
    let fraction := rest.takeWhile Char.isDigit
    if whole = [] ∧ fraction = [] then none
    else
      (exponentOfText? (rest.dropWhile Char.isDigit)).map fun exponent =>
        ⟨ofDigits 10 (whole ++ fraction), exponent - fraction.length⟩
  | _ => none

/-! ### Rounding -/

/-- Above this power of ten every decimal rounds to infinity, and below its negative to zero. -/
def exponentLimit : Int := 400

/-- The double nearest to a decimal, ties going to the even significand. Numbers far outside the
range of a double are recognised by their order of magnitude alone, so that no huge power of ten is
ever built. -/
def toFloat (d : Decimal) : Float :=
  let magnitude : Int := (digits d.coefficient).length + d.exponent
  if d.coefficient = 0 ∨ magnitude < -exponentLimit then Float.ofBits 0
  else if exponentLimit < magnitude then Float.ofBits 0x7ff0000000000000
  else
    match d.exponent with
    | .ofNat e => Float.ofScientific d.coefficient false e
    | .negSucc e => Float.ofScientific d.coefficient true (e + 1)

end Decimal

end ArrowCalc
