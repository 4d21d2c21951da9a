import ArrowCalc.Error
import ArrowCalc.Expr
import ArrowCalc.Token.Marking

/-!
# The parser

A recursive-descent parser with one token of lookahead. It reads a list of tokens, behind which the
end of the input repeats forever at the position `eof`.

```
program     = statement {newline+ statement} newline*
statement   = func "(" [ident {"," ident}] ")" "=>" statement
            | "let" ident "=" statement
            | operation
operation   = unary {("+" | "-" | "*" | "/") unary}        grouped by binding power
unary       = ("+" | "-") unary | power
power       = application ["**" unary]
application = primary ["(" [statement {"," statement}] ")"]
primary     = ident | int | "(" statement ")"
```

A production returns an `Outcome`: a value and the tokens behind it, or an error and the tokens from
the offending one on. A value is never free, it costs at least one token, and that is why the
productions terminate.
-/

namespace ArrowCalc

namespace Parser

/-! ### Outcomes -/

/-- What a production makes of its tokens. In both cases `rest` is what it did not consume; a value
leaves fewer than `n` tokens. -/
inductive Outcome (α : Type) (n : Nat) where
  | ok (value : α) (rest : List Token) (lt : rest.length < n)
  | fail (error : SyntaxError) (rest : List Token)

namespace Outcome

variable {α β : Type} {m n : Nat}

/-- Changes the value. -/
def map (f : α → β) : Outcome α n → Outcome β n
  | ok a rest lt => ok (f a) rest lt
  | fail e rest => fail e rest

/-- Forgets by how much the rest is shorter. -/
def weaken (h : n ≤ m) : Outcome α n → Outcome α m
  | ok a rest lt => ok a rest (Nat.lt_of_lt_of_le lt h)
  | fail e rest => fail e rest

/-- Goes on, behind a value, with something that may leave the rest as it is. -/
def andMaybe (o : Outcome α n)
    (next : α → (rest : List Token) → rest.length < n → Outcome β (rest.length + 1)) :
    Outcome β n :=
  match o with
  | ok a rest lt => (next a rest lt).weaken lt
  | fail e rest => fail e rest

/-- Goes on, behind a value, with a production. -/
def andThen (o : Outcome α n)
    (next : α → (rest : List Token) → rest.length < n → Outcome β rest.length) : Outcome β n :=
  o.andMaybe fun a rest lt => (next a rest lt).weaken (Nat.le_succ _)

end Outcome

/-! ### Single tokens -/

/-- The kind of the next token. -/
def peek : List Token → TokenKind
  | [] => .eof
  | t :: _ => t.kind

variable (eof : Span)

/-- The span of the next token. -/
def peekSpan : List Token → Span
  | [] => eof
  | t :: _ => t.span

/-- The error for a next token that is not of kind `wanted`. -/
def unexpected (wanted : TokenKind) (ts : List Token) : SyntaxError :=
  ⟨.expected wanted (peek ts), peekSpan eof ts⟩

/-- Consumes a token of the given kind. -/
def expect (wanted : TokenKind) (ts : List Token) : Outcome Token ts.length :=
  match ts with
  | [] => .fail (unexpected eof wanted []) []
  | t :: rest =>
    if t.kind = wanted then .ok t rest (Nat.lt_succ_self _)
    else .fail (unexpected eof wanted (t :: rest)) (t :: rest)

/-- Consumes a token of the given kind together with the payload that `get?` finds in it. A token
without that payload is consumed too. -/
def expectPayload {α : Type} (wanted : TokenKind) (get? : Token → Option α) (ts : List Token) :
    Outcome α ts.length :=
  (expect eof wanted ts).andMaybe fun t rest _ =>
    match get? t with
    | some a => .ok a rest (Nat.lt_succ_self _)
    | none => .fail ⟨.missingPayload t.kind, t.span⟩ rest

/-- Consumes an identifier and returns its name. -/
def identifier (ts : List Token) : Outcome String ts.length :=
  expectPayload eof .ident Token.name? ts

/-! ### Parameter lists -/

/-- The names behind the first one, each after a comma. -/
def moreParams (ts : List Token) : Outcome (List String) (ts.length + 1) :=
  match expect eof .comma ts with
  | .fail _ _ => .ok [] ts (Nat.lt_succ_self _)
  | .ok _ rest _ =>
    ((identifier eof rest).andMaybe fun name rest _ =>
      (moreParams rest).map (name :: ·)).weaken (by omega)
termination_by ts.length

/-- The names between the parentheses of a function literal. -/
def params (ts : List Token) : Outcome (List String) (ts.length + 1) :=
  if peek ts = .ident then
    ((identifier eof ts).andMaybe fun name rest _ =>
      (moreParams eof rest).map (name :: ·)).weaken (Nat.le_succ _)
  else .ok [] ts (Nat.lt_succ_self _)

/-! ### Expressions

A production consumes a token before it calls itself or a production above it, and calls only
productions below it on the same tokens. So the number of tokens decreases, or the rank does, which
is the constant in each measure. -/

mutual

/-- A function literal, a declaration or an operation. -/
def statement (ts : List Token) : Outcome Expr ts.length :=
  match peek ts with
  | .func =>
    (expect eof .func ts).andThen fun _ ts _ =>
    (expect eof .lparen ts).andMaybe fun _ ts _ =>
    (params eof ts).andThen fun names ts _ =>
    (expect eof .rparen ts).andThen fun _ ts _ =>
    (expect eof .arrow ts).andThen fun _ ts _ =>
    (statement ts).map (.func names)
  | .kwLet =>
    (expect eof .kwLet ts).andThen fun _ ts _ =>
    (identifier eof ts).andThen fun name ts _ =>
    (expect eof .assign ts).andThen fun _ ts _ =>
    (statement ts).map (.declare name)
  | _ => operation 0 ts
termination_by 8 * ts.length + 7

/-- Operands joined by operators that hold their left side with a power of at least `least`. -/
def operation (least : Nat) (ts : List Token) : Outcome Expr ts.length :=
  (unary ts).andMaybe fun left ts _ => operators least left ts
termination_by 8 * ts.length + 6

/-- The operators behind `left`, with their right operands. -/
def operators (least : Nat) (left : Expr) (ts : List Token) : Outcome Expr (ts.length + 1) :=
  match ts with
  | [] => .ok left [] (Nat.lt_succ_self _)
  | t :: rest =>
    match t.kind.bindingPower?, BinaryOp.ofToken? t.kind with
    | some (l, r), some op =>
      if l < least then .ok left (t :: rest) (Nat.lt_succ_self _)
      else
        ((operation r rest).andMaybe fun right ts _ =>
          operators least (.binary op left right) ts).weaken (Nat.le_succ_of_le (Nat.le_succ _))
    | _, _ => .ok left (t :: rest) (Nat.lt_succ_self _)
termination_by 8 * ts.length + 5

/-- Signs, which hold less tightly than the left side of a power. -/
def unary (ts : List Token) : Outcome Expr ts.length :=
  match ts with
  | [] => power []
  | t :: rest =>
    match t.kind with
    | .plus => ((unary rest).map (.unary .plus)).weaken (Nat.le_succ _)
    | .dash => ((unary rest).map (.unary .minus)).weaken (Nat.le_succ _)
    | _ => power (t :: rest)
termination_by 8 * ts.length + 4

/-- A power, which groups to the right. -/
def power (ts : List Token) : Outcome Expr ts.length :=
  (application ts).andMaybe fun base ts _ =>
    match expect eof .power ts with
    | .fail _ _ => .ok base ts (Nat.lt_succ_self _)
    | .ok _ rest _ => ((unary rest).map (.binary .pow base)).weaken (by omega)
termination_by 8 * ts.length + 3

/-- A primary expression with at most one argument list. -/
def application (ts : List Token) : Outcome Expr ts.length :=
  (primary ts).andMaybe fun callee ts _ =>
    match expect eof .lparen ts with
    | .fail _ _ => .ok callee ts (Nat.lt_succ_self _)
    | .ok _ rest _ =>
      ((arguments rest).andThen fun args ts _ =>
        (expect eof .rparen ts).map fun _ => .call callee args).weaken (by omega)
termination_by 8 * ts.length + 2

/-- The arguments between the parentheses of a call. -/
def arguments (ts : List Token) : Outcome (List Expr) (ts.length + 1) :=
  if peek ts = .rparen then .ok [] ts (Nat.lt_succ_self _)
  else
    ((statement ts).andMaybe fun arg ts _ =>
      (moreArguments ts).map (arg :: ·)).weaken (Nat.le_succ _)
termination_by 8 * ts.length + 8

/-- The arguments behind the first one, each after a comma. -/
def moreArguments (ts : List Token) : Outcome (List Expr) (ts.length + 1) :=
  match expect eof .comma ts with
  | .fail _ _ => .ok [] ts (Nat.lt_succ_self _)
  | .ok _ rest _ =>
    ((statement rest).andMaybe fun arg ts _ =>
      (moreArguments ts).map (arg :: ·)).weaken (by omega)
termination_by 8 * ts.length

/-- A name, an integer or an expression in parentheses. -/
def primary (ts : List Token) : Outcome Expr ts.length :=
  match peek ts with
  | .ident => (identifier eof ts).map .var
  | .int => (expectPayload eof .int Token.int? ts).map .int
  | _ =>
    (expect eof .lparen ts).andThen fun _ ts _ =>
    (statement ts).andThen fun inner ts _ =>
    (expect eof .rparen ts).map fun _ => .paren inner
termination_by 8 * ts.length + 1

end

/-! ### Programs -/

/-- The statements behind the first one. Line breaks may repeat and may end the program. -/
def moreStatements (ts : List Token) : Outcome (List Expr) (ts.length + 1) :=
  match expect eof .newline ts with
  | .fail _ _ => .ok [] ts (Nat.lt_succ_self _)
  | .ok _ rest _ =>
    match peek rest with
    | .newline => (moreStatements rest).weaken (by omega)
    | .eof => .ok [] rest (by omega)
    | _ =>
      ((statement eof rest).andMaybe fun e ts _ =>
        (moreStatements ts).map (e :: ·)).weaken (by omega)
termination_by ts.length

/-- Consumes the end of the input, which need not be listed. -/
def endOfInput (ts : List Token) : Outcome Unit (ts.length + 1) :=
  match ts with
  | [] => .ok () [] (Nat.lt_succ_self _)
  | t :: rest =>
    if t.kind = .eof then .ok () rest (Nat.lt_succ_of_le (Nat.le_succ _))
    else .fail (unexpected eof .eof (t :: rest)) (t :: rest)

/-- A whole program, with the end of the input. -/
def program (ts : List Token) : Outcome (List Expr) ts.length :=
  (statement eof ts).andMaybe fun first ts _ =>
  (moreStatements eof ts).andMaybe fun more ts _ =>
  (endOfInput eof ts).map fun _ => first :: more

end Parser

/-! ### Reading from a stream

A stream can be read bit by bit. A failed reading stops in front of the offending token, or behind
it if what it lacks is a payload. -/

namespace Parser.Outcome

variable {α β : Type} {m n : Nat}

/-- The value or the error. -/
def result : Outcome α n → Except SyntaxError α
  | ok a _ _ => .ok a
  | fail e _ => .error e

/-- The tokens that were not consumed. -/
def rest : Outcome α n → List Token
  | ok _ ts _ => ts
  | fail _ ts => ts

@[simp] theorem rest_map (f : α → β) (o : Outcome α n) : (o.map f).rest = o.rest := by
  cases o <;> rfl

@[simp] theorem rest_weaken (h : n ≤ m) (o : Outcome α n) : (o.weaken h).rest = o.rest := by
  cases o <;> rfl

@[simp] theorem result_map (f : α → β) (o : Outcome α n) : (o.map f).result = o.result.map f := by
  cases o <;> rfl

@[simp] theorem result_weaken (h : n ≤ m) (o : Outcome α n) : (o.weaken h).result = o.result := by
  cases o <;> rfl

end Parser.Outcome

namespace TokenStream

/-- Reads one statement. -/
def readStatement (s : TokenStream) : Except SyntaxError Expr × TokenStream :=
  let o := Parser.statement s.eof s.tokens
  (o.result, { s with tokens := o.rest })

/-- Reads a program to the end of the input. A syntax error anywhere makes the whole tree
malformed. -/
def readProgram (s : TokenStream) : Expr × TokenStream :=
  let o := Parser.program s.eof s.tokens
  let tree :=
    match o.result with
    | .ok statements => .block statements
    | .error e => .malformed e.message
  (tree, { s with tokens := o.rest })

end TokenStream

/-- The tree of a source. -/
def Expr.parse (source : String) : Expr :=
  (TokenStream.ofSource source).marked.readProgram.1

end ArrowCalc
