import ArrowCalc.Error
import ArrowCalc.Expr
import ArrowCalc.Text.Lines

/-!
# JavaScript

Writes a tree as JavaScript. A statement takes one line, and a function body is a block with one
`return`, indented by two blanks per level. Powers become calls of `Math.pow`, whose operands lose
one pair of parentheses, and unary plus is left out.

A `Script` is written piece by piece. Trees may be added one after the other; the text of a tree
that turns out to be malformed stays up to the malformed node.
-/

namespace ArrowCalc

/-- The text written so far, and how deep the next line is indented. -/
structure Script where
  out : String
  level : Nat

namespace Script

/-- A script without text. -/
def empty : Script := ⟨"", 0⟩

/-- The text without its blank lines. -/
def text (s : Script) : String := Text.withoutBlankLines s.out

/-- Writes on a script. What was written stays when writing fails. -/
abbrev Writer := EStateM Error Script

/-- Writes a piece of text. -/
def put (piece : String) : Writer Unit := modify fun s => { s with out := s.out ++ piece }

/-- Writes the indentation of a line. -/
def indent : Writer Unit :=
  modify fun s => { s with out := s.out ++ String.ofList (List.replicate (2 * s.level) ' ') }

/-- Writes one level deeper. -/
def nested (body : Writer Unit) : Writer Unit := fun s =>
  match body { s with level := s.level + 1 } with
  | .ok _ s' => .ok () { s' with level := s'.level - 1 }
  | .error e s' => .error e { s' with level := s'.level - 1 }

/-- Writes what stands behind a minus sign. If it begins with one itself, a blank keeps the two from
being read as a decrement. -/
def afterMinus (operand : Writer Unit) : Writer Unit := fun s =>
  match operand { s with out := "" } with
  | .ok _ s' =>
    let gap := if s'.out.front? = some '-' then " " else ""
    .ok () { s' with out := s.out ++ gap ++ s'.out }
  | .error e s' => .error e { s' with out := s.out ++ s'.out }

mutual

/-- Writes a tree, without the parentheses at its root if it is `bare`. -/
def write (bare : Bool) : Expr → Writer Unit
  | .malformed message => throw (.malformed message)
  | .block statements => writeStatements statements
  | .int value => put value.repr
  | .binary .pow left right => do
    put "Math.pow("
    write true left
    put ", "
    write true right
    put ")"
  | .binary .sub left right => do
    write false left
    put "-"
    afterMinus (write false right)
  | .binary op left right => do
    write false left
    put op.symbol
    write false right
  | .unary .plus operand => write false operand
  | .unary .minus operand => do
    put "-"
    afterMinus (write false operand)
  | .paren inner =>
    if bare then write false inner
    else do
      put "("
      write false inner
      put ")"
  | .declare name value => do
    put ("let " ++ name ++ " = ")
    write false value
  | .var name => put name
  | .func params body => do
    put ("(" ++ ", ".intercalate params ++ ") => \x7b\n")
    nested do
      indent
      put "return "
      write false body
      put ";\n"
    indent
    put "\x7d"
  | .call callee args => do
    write false callee
    put "("
    writeArgs args
    put ")"

/-- Writes statements, each on a line of its own. -/
def writeStatements : List Expr → Writer Unit
  | [] => pure ()
  | e :: es => do
    indent
    write false e
    put ";\n"
    writeStatements es

/-- Writes arguments with commas between them. -/
def writeArgs : List Expr → Writer Unit
  | [] => pure ()
  | e :: es => do
    write false e
    writeMoreArgs es

/-- Writes the arguments behind the first one, each after a comma. -/
def writeMoreArgs : List Expr → Writer Unit
  | [] => pure ()
  | e :: es => do
    put ", "
    write false e
    writeMoreArgs es

end

end Script

/-- The JavaScript text of a tree. -/
def Expr.toJavaScript (e : Expr) : Except Error String :=
  match Script.write false e Script.empty with
  | .ok _ s => .ok s.text
  | .error error _ => .error error

end ArrowCalc
