import ArrowCalc.Decimal.Shortest

/-!
# The text of a number

Numbers are written the way JavaScript writes them. A finite number other than zero is given by the
digits `d₁ … dₖ` of its shortest decimal and the place `n` of the point, which stands for
`0.d₁…dₖ * 10 ^ n`. Places from `-5` to `21` are written positionally, all others with an exponent.
-/

namespace ArrowCalc

namespace Number

/-- The exponent form `d₁.d₂…dₖe±x`, without the point if there is one digit only. -/
def scientific (digits : List Char) (n : Int) : List Char :=
  let fraction := digits.drop 1
  let exponent := n - 1
  digits.take 1 ++ (if fraction = [] then [] else '.' :: fraction) ++
    'e' :: (if exponent < 0 then '-' else '+') :: Nat.toDigits 10 exponent.natAbs

/-- The number `0.d₁…dₖ * 10 ^ n`. -/
def layout (digits : List Char) (n : Int) : List Char :=
  let k : Int := digits.length
  if k ≤ n ∧ n ≤ 21 then digits ++ List.replicate (n - k).toNat '0'
  else if 0 < n ∧ n ≤ 21 then digits.take n.toNat ++ '.' :: digits.drop n.toNat
  else if -6 < n ∧ n ≤ 0 then '0' :: '.' :: List.replicate (-n).toNat '0' ++ digits
  else scientific digits n

/-- The text of a decimal, which does not depend on trailing zeros of its coefficient. -/
def ofDecimal (d : Decimal) : List Char :=
  let digits := Decimal.digits d.coefficient
  layout (digits.reverse.dropWhile (· = '0')).reverse (d.exponent + digits.length)

/-- The text of a number. Both zeros are written `0`. -/
def text (x : Float) : String :=
  let bits := x.toBits.toNat
  let magnitude := bits % 9223372036854775808
  let sign := if bits = magnitude then "" else "-"
  if 9218868437227405312 < magnitude then "NaN"
  else if magnitude = 9218868437227405312 then sign ++ "Infinity"
  else if magnitude = 0 then "0"
  else sign ++ String.ofList (ofDecimal (Binary.ofBits magnitude).shortest)

end Number

end ArrowCalc
