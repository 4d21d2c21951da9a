import ArrowCalc.Expr.JavaScript
import ArrowCalc.Expr.Outline
import ArrowCalc.Expr.Parser
import ArrowCalc.Machine

/-!
# Modes

A source can be listed as tokens, evaluated, written as JavaScript, or shown as the outline of its
tree. `Mode.run` gives the output or the error, and `Mode.render` one text for both.
-/

namespace ArrowCalc

/-- What is made of a source. -/
inductive Mode where
  | lex | eval | compile | ast
deriving DecidableEq

namespace Mode

/-- The mode that is used when none is asked for. -/
def default : Mode := ast

/-- The name of a mode. -/
def name : Mode → String
  | lex => "lex"
  | eval => "eval"
  | compile => "compile"
  | ast => "ast"

/-- The mode with a name. A name that no mode has stands for the outline. -/
def ofName (name : String) : Mode :=
  if name = "lex" then lex
  else if name = "eval" then eval
  else if name = "compile" then compile
  else ast

@[simp] theorem ofName_name (mode : Mode) : ofName mode.name = mode := by
  cases mode <;> rfl

/-- The output for a source, or the error that stopped it. Evaluation may nest at most `depth`
levels. -/
def run (depth : Nat) (mode : Mode) (source : String) : Except Error String :=
  match mode with
  | lex => .ok (TokenStream.ofSource source).marked.listing
  | eval => (Expr.parse source).evaluate depth
  | compile => (Expr.parse source).toJavaScript
  | ast => (Expr.parse source).outline

/-- What the text of a failure begins with. -/
def errorMark : String := "Error: "

/-- The output for a source, or the message of the error behind `Error: `. -/
def render (depth : Nat) (mode : Mode) (source : String) : String :=
  match mode.run depth source with
  | .ok output => output
  | .error error => errorMark ++ error.message

end Mode

end ArrowCalc
