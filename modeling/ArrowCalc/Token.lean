import ArrowCalc.Number
import ArrowCalc.Span

/-!
# Tokens

A token has a kind, an optional payload and a span. The three are independent: every kind may come
with every payload, and it is the reader of a token that asks for the payload it needs.
-/

namespace ArrowCalc

/-- What a token is. `func` marks the parenthesis behind it as the start of a function literal,
`eof` stands for the end of the input, and `unknown` for text that is no token of the language. -/
inductive TokenKind where
  | assign | addAssign | subAssign | mulAssign | divAssign
  | plus | dash | star | slash | power
  | equal | greaterEqual | lessEqual
  | increment | decrement
  | lparen | rparen | lbracket | rbracket | lbrace | rbrace | langle | rangle
  | int | float | bool | ident
  | kwIf | kwElse | kwBreak | kwContinue | kwWhile | kwLet | kwReturn
  | comma | colon | semicolon | dot | quote | arrow | newline
  | func | eof | unknown
deriving DecidableEq

namespace TokenKind

/-- The name of a kind in messages and token listings. -/
def text : TokenKind → String
  | assign => "Assign"
  | addAssign => "AddAssign"
  | subAssign => "SubAssign"
  | mulAssign => "MulAssign"
  | divAssign => "DivAssign"
  | plus => "Plus"
  | dash => "Dash"
  | star => "Star"
  | slash => "Slash"
  | power => "Power"
  | equal => "Equal"
  | greaterEqual => "GreaterEqual"
  | lessEqual => "LessEqual"
  | increment => "Inc"
  | decrement => "Dec"
  | lparen => "LParen"
  | rparen => "RParen"
  | lbracket => "LBracket"
  | rbracket => "RBracket"
  | lbrace => "LBrace"
  | rbrace => "RBrace"
  | langle => "LAngle"
  | rangle => "RAngle"
  | int => "IntConst"
  | float => "FloatConst"
  | bool => "BoolConst"
  | ident => "Ident"
  | kwIf => "If"
  | kwElse => "Else"
  | kwBreak => "Break"
  | kwContinue => "Continue"
  | kwWhile => "While"
  | kwLet => "Let"
  | kwReturn => "Return"
  | comma => "Comma"
  | colon => "Colon"
  | semicolon => "Semicolon"
  | dot => "Dot"
  | quote => "Quote"
  | arrow => "Arrow"
  | newline => "NEWLINE"
  | func => "Func"
  | eof => "EOF"
  | unknown => "Unknown"

/-- How tightly an operator holds the operand on its left and on its right. The right side holds
tighter, so equal operators group to the left. The power operator is not here: it groups to the
right and has a production of its own. -/
def bindingPower? : TokenKind → Option (Nat × Nat)
  | plus | dash => some (1, 2)
  | star | slash => some (3, 4)
  | _ => none

end TokenKind

/-- What a literal, an identifier or a stray character carries. -/
inductive Payload where
  | int (value : Int)
  | float (value : Float)
  | bool (value : Bool)
  | text (value : String)

/-- The text of a payload in token listings. -/
def Payload.render : Payload → String
  | int value => value.repr
  | float value => Number.text value
  | bool value => if value then "true" else "false"
  | text value => value

/-- A token of the language. -/
structure Token where
  kind : TokenKind
  payload : Option Payload
  span : Span

namespace Token

/-- The end of the input, seen at `span`. -/
def eof (span : Span) : Token := ⟨.eof, none, span⟩

/-- The text `<kind>: <payload> <span>`, with nothing between the blanks if there is no payload. -/
def text (t : Token) : String :=
  t.kind.text ++ ": " ++ (t.payload.elim "" Payload.render) ++ " " ++ t.span.text

/-- The name carried by an identifier. -/
def name? (t : Token) : Option String :=
  match t.payload with
  | some (.text name) => some name
  | _ => none

/-- The value carried by an integer literal. -/
def int? (t : Token) : Option Int :=
  match t.payload with
  | some (.int value) => some value
  | _ => none

end Token

end ArrowCalc
