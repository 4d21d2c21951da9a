import ArrowCalc.Token

/-!
# Expressions

The tree of a program. A program is a `block` of statements, or `malformed` with the message of the
syntax error that stopped its parser; both may also stand inside a tree that was not made by the
parser.
-/

namespace ArrowCalc

/-- The operators that stand between two operands. -/
inductive BinaryOp where
  | add | sub | mul | div | pow
deriving DecidableEq

namespace BinaryOp

/-- How the operator is written. -/
def symbol : BinaryOp → String
  | add => "+"
  | sub => "-"
  | mul => "*"
  | div => "/"
  | pow => "**"

/-- The operator written by a token. -/
def ofToken? : TokenKind → Option BinaryOp
  | .plus => some add
  | .dash => some sub
  | .star => some mul
  | .slash => some div
  | .power => some pow
  | _ => none

end BinaryOp

/-- The operators that stand in front of one operand. -/
inductive UnaryOp where
  | plus | minus
deriving DecidableEq

/-- How the operator is written. -/
def UnaryOp.symbol : UnaryOp → String
  | plus => "+"
  | minus => "-"

/-- An expression of the language. Every construct has a value, so declarations, function literals
and statement lists are expressions too. -/
inductive Expr where
  | malformed (message : String)
  | block (statements : List Expr)
  | int (value : Int)
  | binary (op : BinaryOp) (left right : Expr)
  | unary (op : UnaryOp) (operand : Expr)
  | paren (inner : Expr)
  | declare (name : String) (value : Expr)
  | var (name : String)
  | func (params : List String) (body : Expr)
  | call (callee : Expr) (args : List Expr)

end ArrowCalc
