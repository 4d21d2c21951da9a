import ArrowCalc.Decimal.Basic

/-!
# The values of literals

Integer literals are written in radix ten, eight (after a leading zero) or sixteen (after `0x` or
`0X`) and have to be below `2 ^ 63`. Float literals may end in an unfinished exponent, which does
not count.
-/

namespace ArrowCalc

namespace Literal

/-- Integer literals stay below this bound, `2 ^ 63`. -/
def intBound : Nat := 9223372036854775808

/-- The number written by at least one digit, if it is below the bound. -/
def bounded? (radix : Nat) (digits : List Char) : Option Nat :=
  let value := Decimal.ofDigits radix digits
  if digits ≠ [] ∧ value < intBound then some value else none

/-- The value of an integer literal. -/
def int? : List Char → Option Nat
  | '0' :: c :: digits =>
    if c = 'x' ∨ c = 'X' then bounded? 16 digits else bounded? 8 (c :: digits)
  | digits => bounded? 10 digits

/-- Whether a character at the end of a float literal belongs to an unfinished exponent. -/
def isExponentMark (c : Char) : Bool := c = 'e' ∨ c = 'E' ∨ c = '-'

/-- A float literal without its unfinished exponent. -/
def finished (text : List Char) : List Char := (text.reverse.dropWhile isExponentMark).reverse

/-- The value of a float literal. -/
def float (text : List Char) : Float :=
  match Decimal.ofText? (finished text) with
  | some d => d.toFloat
  | none => Float.ofBits 0x7ff8000000000000

end Literal

end ArrowCalc
