import ArrowCalc.Lexeme
import ArrowCalc.Literal

/-!
# Token streams

A token stream is a list of tokens behind which the end of the input repeats forever.

The stream of a source is made from its lexemes by a `Cursor`, which counts lines, columns and open
parentheses. Columns count the characters of tokens only, so blanks have no width. A line break is a
token where the parentheses before it balance; elsewhere it only ends the line.
-/

namespace ArrowCalc

/-! ### Lexemes as tokens -/

/-- The kind and payload of a lexeme that is a token or a stray character. An integer literal
without a value is unknown text. -/
def Lexeme.content (x : Lexeme) : TokenKind × Option Payload :=
  let text := String.ofList x.text
  match x.cls with
  | .token .int =>
    match Literal.int? x.text with
    | some value => (.int, some (.int value))
    | none => (.unknown, some (.text text))
  | .token .float => (.float, some (.float (Literal.float x.text)))
  | .token .bool => (.bool, some (.bool (x.text = ['t', 'r', 'u', 'e'])))
  | .token .ident => (.ident, some (.text text))
  | .token kind => (kind, none)
  | .blank | .stray => (.unknown, some (.text text))

/-- A place in a source: the line, the column of the next token, and the number of parentheses
opened less those closed so far.

The depth is an integer without bounds, and no source overflows it. Nothing here says that a number
of 32 bits would do. That needs a bound on the source, and `TokenStream.significant_lineBreaks` is
where the bound is stated: fewer than `2 ^ 31` parentheses. -/
structure Cursor where
  line : Nat
  column : Nat
  depth : Int
deriving DecidableEq

namespace Cursor

/-- The place before the first character. -/
def start : Cursor := ⟨1, 1, 0⟩

/-- The place behind a lexeme. -/
def advance (cur : Cursor) (x : Lexeme) : Cursor :=
  match x.cls with
  | .blank => cur
  | .token .newline => { cur with line := cur.line + 1, column := 1 }
  | .token .lparen => { cur with column := cur.column + x.text.length, depth := cur.depth + 1 }
  | .token .rparen => { cur with column := cur.column + x.text.length, depth := cur.depth - 1 }
  | _ => { cur with column := cur.column + x.text.length }

/-- The token that a lexeme gives at a place. -/
def token? (cur : Cursor) (x : Lexeme) : Option Token :=
  match x.cls with
  | .blank => none
  | .token .newline =>
    if cur.depth = 0 then some ⟨.newline, none, .point cur.line cur.column⟩ else none
  | _ =>
    let (kind, payload) := x.content
    some ⟨kind, payload, ⟨cur.line, cur.column, cur.column + x.text.length⟩⟩

/-- The place behind a list of lexemes. -/
def advanceAll (cur : Cursor) (xs : List Lexeme) : Cursor := xs.foldl advance cur

/-- The empty span at a place. -/
def span (cur : Cursor) : Span := .point cur.line cur.column

end Cursor

/-- A token together with the place behind it. -/
structure Reading where
  token : Token
  after : Cursor

/-- The tokens of a list of lexemes, read from a place on. -/
def readings (cur : Cursor) : List Lexeme → List Reading
  | [] => []
  | x :: xs =>
    match cur.token? x with
    | some token => ⟨token, cur.advance x⟩ :: readings (cur.advance x) xs
    | none => readings (cur.advance x) xs

/-! ### Streams -/

/-- A list of tokens with the end of the input behind it, which stands at `eof` and never runs
out. -/
structure TokenStream where
  tokens : List Token
  eof : Span

namespace TokenStream

/-- The tokens of a source, with the place behind each. -/
def trace (source : String) : List Reading := readings .start (Lexeme.cut source.toList)

/-- The place at the end of a source. -/
def endOf (source : String) : Cursor := Cursor.start.advanceAll (Lexeme.cut source.toList)

/-- The stream of a source. -/
def ofSource (source : String) : TokenStream :=
  ⟨(trace source).map Reading.token, (endOf source).span⟩

/-- The stream behind its first `n` tokens. -/
def drop (s : TokenStream) (n : Nat) : TokenStream := { s with tokens := s.tokens.drop n }

/-- The `n`-th token of a stream. -/
def get (s : TokenStream) (n : Nat) : Token := s.tokens.getD n (Token.eof s.eof)

@[simp] theorem get_drop (s : TokenStream) (m n : Nat) : (s.drop m).get n = s.get (m + n) := by
  simp only [get, drop, List.getD_eq_getElem?_getD, List.getElem?_drop]

/-- The listed tokens, and then the end of the input `n` times. -/
def withEnds (s : TokenStream) (n : Nat) : List Token :=
  s.tokens ++ List.replicate n (Token.eof s.eof)

/-- One line per token, up to the end of the input. -/
def listing (s : TokenStream) : String := "\n".intercalate (s.tokens.map Token.text)

end TokenStream

end ArrowCalc
