import ArrowCalc.Token

/-!
# Lexemes

A source text is cut into lexemes from left to right. Each lexeme is the longest piece that some
class of the language accepts; a word that is a keyword is that keyword. A character with which no
class begins is a lexeme of its own.

`Lexeme.scan` finds the first lexeme of a text and `Lexeme.cut` all of them. Nothing is left out:
blanks are lexemes too.
-/

namespace ArrowCalc

/-- What a lexeme is: a token of the language, blanks between tokens, or a character that begins
neither. -/
inductive Lexeme.Class where
  | token (kind : TokenKind)
  | blank
  | stray
deriving DecidableEq

/-- A piece of a source text and its class. -/
structure Lexeme where
  cls : Lexeme.Class
  text : List Char
deriving DecidableEq

namespace Lexeme

/-! ### Character classes

All of them hold ASCII characters only. -/

/-- The characters that only separate tokens. -/
def isBlank (c : Char) : Bool := c = ' ' ∨ c = '\t' ∨ c = '\r'

/-- The characters that begin a word. -/
def isLetter (c : Char) : Bool := c.isAlpha ∨ c = '_'

/-- The digits of radix eight. -/
def isOctDigit (c : Char) : Bool := '0' ≤ c ∧ c ≤ '7'

/-- The digits of radix sixteen. -/
def isHexDigit (c : Char) : Bool := c.isDigit ∨ ('a' ≤ c ∧ c ≤ 'f') ∨ ('A' ≤ c ∧ c ≤ 'F')

/-- The number of leading characters that satisfy `p`. -/
def runLength (p : Char → Bool) (cs : List Char) : Nat := (cs.takeWhile p).length

/-! ### Fixed spellings -/

/-- The tokens that are not words and have one spelling. -/
def symbols : List (List Char × TokenKind) :=
  [(['='], .assign), (['+', '='], .addAssign), (['-', '='], .subAssign), (['*', '='], .mulAssign),
    (['/', '='], .divAssign), (['+'], .plus), (['-'], .dash), (['*'], .star), (['/'], .slash),
    (['*', '*'], .power), (['=', '='], .equal), (['>', '='], .greaterEqual),
    (['<', '='], .lessEqual), (['+', '+'], .increment), (['-', '-'], .decrement),
    (['('], .lparen), ([')'], .rparen), (['['], .lbracket), ([']'], .rbracket),
    (['\x7b'], .lbrace), (['\x7d'], .rbrace), (['<'], .langle), (['>'], .rangle),
    ([','], .comma), ([':'], .colon), ([';'], .semicolon), (['.'], .dot), (['\x27'], .quote),
    (['=', '>'], .arrow), (['\n'], .newline)]

/-- The words that are not identifiers. -/
def keywords : List (List Char × TokenKind) :=
  [(['i', 'f'], .kwIf), (['e', 'l', 's', 'e'], .kwElse), (['b', 'r', 'e', 'a', 'k'], .kwBreak),
    (['c', 'o', 'n', 't', 'i', 'n', 'u', 'e'], .kwContinue), (['w', 'h', 'i', 'l', 'e'], .kwWhile),
    (['l', 'e', 't'], .kwLet), (['r', 'e', 't', 'u', 'r', 'n'], .kwReturn),
    (['t', 'r', 'u', 'e'], .bool), (['f', 'a', 'l', 's', 'e'], .bool)]

/-- The symbol at the start of `c :: rest`, with the number of its characters behind `c`. No symbol
has more than two characters. -/
def symbol? (c : Char) (rest : List Char) : Option (TokenKind × Nat) :=
  match symbols.lookup (c :: rest.take 1) with
  | some kind => some (kind, (rest.take 1).length)
  | none => (symbols.lookup [c]).map (·, 0)

/-! ### Numbers -/

/-- The length of an exponent: `e` or `E`, an optional minus sign and any digits. -/
def exponentLength : List Char → Nat
  | [] => 0
  | e :: rest =>
    if e = 'e' ∨ e = 'E' then
      match rest with
      | '-' :: digits => 2 + runLength Char.isDigit digits
      | digits => 1 + runLength Char.isDigit digits
    else 0

/-- The length of digits and an exponent, which is what follows a decimal point. -/
def fractionLength (cs : List Char) : Nat :=
  let digits := runLength Char.isDigit cs
  digits + exponentLength (cs.drop digits)

/-- The length of what makes an integer of a leading zero: `x` or `X` and digits of radix sixteen,
or digits of radix eight. -/
def afterZeroLength : List Char → Nat
  | [] => 0
  | c :: rest =>
    if c = 'x' ∨ c = 'X' then 1 + runLength isHexDigit rest else runLength isOctDigit (c :: rest)

/-- The number that begins with the digit `c`, and the number of its characters behind `c`. A
decimal point makes it a float. -/
def number (c : Char) (rest : List Char) : TokenKind × Nat :=
  let whole := if c = '0' then 0 else runLength Char.isDigit rest
  match rest.drop whole with
  | '.' :: fraction => (.float, whole + 1 + fractionLength fraction)
  | _ => (.int, if c = '0' then afterZeroLength rest else whole)

/-! ### Cutting -/

/-- The class of the first lexeme of `c :: rest`, and the number of its characters behind `c`. -/
def scan (c : Char) (rest : List Char) : Class × Nat :=
  if isBlank c then (.blank, runLength isBlank rest)
  else if isLetter c then
    let n := runLength Char.isAlphanum rest
    (.token ((keywords.lookup (c :: rest.take n)).getD .ident), n)
  else if c.isDigit then
    let (kind, n) := number c rest
    (.token kind, n)
  else if c = '.' ∧ rest.head?.any Char.isDigit then (.token .float, fractionLength rest)
  else
    match symbol? c rest with
    | some (kind, n) => (.token kind, n)
    | none => (.stray, 0)

/-- The lexemes of a text. -/
def cut : List Char → List Lexeme
  | [] => []
  | c :: rest =>
    let (cls, n) := scan c rest
    ⟨cls, c :: rest.take n⟩ :: cut (rest.drop n)
termination_by cs => cs.length
decreasing_by simp only [List.length_drop, List.length_cons]; omega

/-- Nothing is left out: the lexemes of a text spell the text. -/
theorem flatMap_text_cut (cs : List Char) : (cut cs).flatMap text = cs := by
  fun_induction cut cs with
  | case1 => rfl
  | case2 c rest cls n hscan ih =>
    rw [List.flatMap_cons, ih, List.cons_append, List.take_append_drop]

end Lexeme

end ArrowCalc
