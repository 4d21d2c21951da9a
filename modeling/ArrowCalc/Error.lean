import ArrowCalc.Token

/-!
# Failures

A failure is a cause; its wording is given by `message` alone.
-/

namespace ArrowCalc

/-! ### Syntax errors -/

/-- Why a token could not be used. -/
inductive SyntaxError.Cause where
  /-- Only a token of kind `wanted` fits here. -/
  | expected (wanted found : TokenKind)
  /-- An identifier without a name, or an integer literal without a value. -/
  | missingPayload (kind : TokenKind)
deriving DecidableEq

/-- A failure of the parser, at the token that could not be used. -/
structure SyntaxError where
  cause : SyntaxError.Cause
  span : Span
deriving DecidableEq

/-- What the user is told about a syntax error. -/
def SyntaxError.message (e : SyntaxError) : String :=
  match e.cause with
  | .expected wanted found => "Expected " ++ wanted.text ++ ", got " ++ found.text
  | .missingPayload kind => "Missing value for " ++ kind.text

/-! ### Errors of evaluation -/

/-- The constructs that take their operands from the value stack. -/
inductive Operation where
  | result | block | binary | unary | declare | call
deriving DecidableEq

/-- The name of an operation in messages. -/
def Operation.text : Operation → String
  | result => "Result"
  | block => "ExpList"
  | binary => "BinOp"
  | unary => "UnOp"
  | declare => "VarDecl"
  | call => "FuncCall"

/-- A failure of an evaluation. Operands are kept as the texts of their values. -/
inductive RuntimeError where
  | unknownVariable (name : String)
  | notAFunction (value : String)
  | wrongArity (expected found : Nat)
  | badBinaryOperand (left op right : String)
  | badUnaryOperand (op operand : String)
  | stackUnderflow (operation : Operation)
deriving DecidableEq

/-- What the user is told about a failed evaluation. -/
def RuntimeError.message : RuntimeError → String
  | unknownVariable name => "Unknown var: " ++ name
  | notAFunction value => "Not a function: " ++ value
  | wrongArity expected found =>
    "Wrong number of arguments: expected " ++ expected.repr ++ ", got " ++ found.repr
  | badBinaryOperand left op right => "Bad type: " ++ left ++ " " ++ op ++ " " ++ right
  | badUnaryOperand op operand => "Bad type: " ++ op ++ " " ++ operand
  | stackUnderflow operation => operation.text ++ " stack error"

/-! ### Errors of a request -/

/-- A failure of a whole request. -/
inductive Error where
  /-- The tree is malformed, for the reason that the message gives. -/
  | malformed (message : String)
  /-- The evaluation failed. -/
  | runtime (error : RuntimeError)
  /-- The evaluation was given up, because it is nested more deeply than was allowed. -/
  | tooDeep
deriving DecidableEq

namespace Error

/-- What the user is told about a failed request. -/
def message : Error → String
  | malformed text => text
  | runtime error => error.message
  | tooDeep => "Nested too deeply"

end Error

end ArrowCalc
