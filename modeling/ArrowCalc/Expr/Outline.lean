import ArrowCalc.Error
import ArrowCalc.Expr

/-!
# Outlines

The outline of a tree has one line per node, from the root down and from left to right, each
indented by its depth.

An `Outline` is written line by line. Trees may be added one after the other; the lines of a tree
that turns out to be malformed stay up to the malformed node.
-/

namespace ArrowCalc

/-- The lines written so far, and how deep the next one is indented. -/
structure Outline where
  lines : Array String
  level : Nat

namespace Outline

/-- An outline without lines. -/
def empty : Outline := ⟨#[], 0⟩

/-- The lines as one text. -/
def text (o : Outline) : String := "\n".intercalate o.lines.toList

/-- Writes on an outline. What was written stays when writing fails. -/
abbrev Writer := EStateM Error Outline

/-- Writes a line. -/
def line (text : String) : Writer Unit :=
  modify fun o =>
    { o with lines := o.lines.push (String.ofList (List.replicate o.level ' ') ++ text) }

/-- Writes one level deeper. -/
def nested (body : Writer Unit) : Writer Unit := fun o =>
  match body { o with level := o.level + 1 } with
  | .ok _ o' => .ok () { o' with level := o'.level - 1 }
  | .error e o' => .error e { o' with level := o'.level - 1 }

mutual

/-- Writes a tree. -/
def write : Expr → Writer Unit
  | .malformed message => throw (.malformed message)
  | .block statements => do
    line "ExpList"
    nested (writeAll statements)
  | .int value => line ("IntLit " ++ value.repr)
  | .binary op left right => do
    line ("BinOp " ++ op.symbol)
    nested do
      write left
      write right
  | .unary op operand => do
    line ("UnOp " ++ op.symbol)
    nested (write operand)
  | .paren inner => do
    line "Paren"
    nested (write inner)
  | .declare name value => do
    line ("VarDecl " ++ name)
    nested (write value)
  | .var name => line ("VarId " ++ name)
  | .func params body => do
    line ("FuncDecl (" ++ ", ".intercalate params ++ ")")
    nested (write body)
  | .call callee args => do
    line "FuncCall"
    nested do
      write callee
      writeAll args

/-- Writes trees one below the other. -/
def writeAll : List Expr → Writer Unit
  | [] => pure ()
  | e :: es => do
    write e
    writeAll es

end

end Outline

/-- The outline of a tree. -/
def Expr.outline (e : Expr) : Except Error String :=
  match Outline.write e Outline.empty with
  | .ok _ o => .ok o.text
  | .error error _ => .error error

end ArrowCalc
