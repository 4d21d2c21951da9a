import ArrowCalc.Text.Blank

/-!
# Lines of a text

A line ends at a line feed, or at a carriage return with a line feed behind it. Text behind the last
line feed is a line too, unless it is empty.
-/

namespace ArrowCalc

namespace Text

/-- Drops the carriage return in front of a line feed. The line is given backwards. -/
def dropReturn : List Char → List Char
  | '\r' :: line => line
  | line => line

/-- The lines of a text, where `seen` is the start of the first one, backwards. -/
def linesFrom (seen : List Char) : List Char → List (List Char)
  | [] => if seen = [] then [] else [seen.reverse]
  | c :: cs =>
    if c = '\n' then (dropReturn seen).reverse :: linesFrom [] cs else linesFrom (c :: seen) cs

/-- The lines of a text. -/
def lines (cs : List Char) : List (List Char) := linesFrom [] cs

/-- The lines of a text that hold something else than white space, with line feeds between them. -/
def withoutBlankLines (text : String) : String :=
  let kept := (lines text.toList).filter fun line => !line.all isBlank
  "\n".intercalate (kept.map String.ofList)

end Text

end ArrowCalc
