/-!
# Where a token stands

A token stands on one line and covers a half-open range of columns. A range may be empty: line
breaks, the end of the input and the marks put in front of function literals have no width.
-/

namespace ArrowCalc

/-- The line a token stands on and the columns it covers; `stop` is the first column after it. -/
structure Span where
  line : Nat
  start : Nat
  stop : Nat
deriving DecidableEq

namespace Span

/-- The empty range at a column. -/
def point (line column : Nat) : Span := ⟨line, column, column⟩

/-- The text `ln <line> (<start>:<stop>)`. -/
def text (p : Span) : String :=
  "ln " ++ p.line.repr ++ " (" ++ p.start.repr ++ ":" ++ p.stop.repr ++ ")"

end Span

end ArrowCalc
