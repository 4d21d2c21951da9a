import ArrowCalc.Expr

/-!
# Values

A value is a number or a function. A function is its parameters and its body alone: it remembers
nothing of the place where it was made.
-/

namespace ArrowCalc

/-- What an expression evaluates to. -/
inductive Value where
  | num (value : Float)
  | func (params : List String) (body : Expr)

namespace Value

/-- The number that a value is. -/
def number? : Value → Option Float
  | num value => some value
  | func _ _ => none

/-- The text of a value. Functions show their parameters. -/
def text : Value → String
  | num value => Number.text value
  | func params _ => "<fn(" ++ ", ".intercalate params ++ ")>"

end Value

end ArrowCalc
