import ArrowCalc.Token.Stream

/-!
# Marked token streams

A parenthesis that opens a function literal, such as the one in `(x) => x`, looks like any other
until the token behind its partner is seen. In a marked stream each of them has a `func` token in
front of it, so that a parser with one token of lookahead can tell it apart.

A `Marker` reads a stream and gives out the marked one token by token. At each parenthesis it reads
ahead to its partner. Tokens that were read ahead wait in a queue and are given out, or looked at
again, in the order of the stream.
-/

namespace ArrowCalc

/-- The first token of a stream and the stream behind it. The end of the input is never used up. -/
def TokenStream.next (s : TokenStream) : Token × TokenStream :=
  match s.tokens with
  | [] => (Token.eof s.eof, s)
  | t :: ts => (t, { s with tokens := ts })

/-- By how much a token changes the number of open parentheses. -/
def TokenKind.nesting : TokenKind → Int
  | .lparen => 1
  | .rparen => -1
  | _ => 0

/-! ### Reading ahead -/

/-- A stream of which some tokens were read ahead; `ahead` holds them in order. -/
structure Lookahead where
  ahead : List Token
  stream : TokenStream

namespace Lookahead

/-- Takes the first token, from the queue if it holds one. -/
def pop (b : Lookahead) : Token × Lookahead :=
  match b.ahead with
  | [] => (b.stream.next.1, { b with stream := b.stream.next.2 })
  | t :: ts => (t, { b with ahead := ts })

/-- Puts a token back in front. -/
def push (t : Token) (b : Lookahead) : Lookahead := { b with ahead := t :: b.ahead }

/-- The number of tokens in front of the unlisted end of the input. -/
def size (b : Lookahead) : Nat := b.ahead.length + b.stream.tokens.length

/-- A token other than the end of the input is used up when it is taken. -/
theorem size_pop_lt {b : Lookahead} (h : b.pop.1.kind ≠ .eof) : b.pop.2.size < b.size := by
  obtain ⟨_ | ⟨t, ts⟩, ⟨_ | ⟨u, us⟩, eof⟩⟩ := b
  · exact absurd rfl h
  · exact Nat.lt_add_of_pos_right (Nat.lt_succ_self 0)
  · exact Nat.lt_succ_self _
  · exact Nat.add_lt_add_right (Nat.lt_succ_self _) _

/-- Whether the parenthesis that brings `depth` open ones down to none is followed by an arrow. It
has to stand before the end of the input. Every token looked at is ahead afterwards. -/
def scan (depth : Int) (b : Lookahead) : Bool × Lookahead :=
  let t := b.pop.1
  let rest := b.pop.2
  if _ : t.kind = .eof then (false, rest.push t)
  else
    let depth := depth + t.kind.nesting
    if t.kind = .rparen ∧ depth = 0 then
      let u := rest.pop.1
      (decide (u.kind = .arrow), (rest.pop.2.push u).push t)
    else
      let (found, rest) := scan depth rest
      (found, rest.push t)
termination_by b.size
decreasing_by exact size_pop_lt ‹_›

end Lookahead

/-! ### Marking -/

/-- The mark in front of a parenthesis. -/
def Token.markFor (t : Token) : Token := ⟨.func, none, .point t.span.line t.span.start⟩

/-- A reader of a marked stream. `pending` is the parenthesis whose mark was just given out. -/
structure Marker where
  tokens : Lookahead
  pending : Option Token

namespace Marker

/-- The reader that stands in front of a stream. -/
def ofStream (s : TokenStream) : Marker := ⟨⟨[], s⟩, none⟩

/-- Gives out the next token of the marked stream. -/
def next (m : Marker) : Token × Marker :=
  match m.pending with
  | some t => (t, { m with pending := none })
  | none =>
    let (t, rest) := m.tokens.pop
    if t.kind = .lparen then
      match rest.scan 1 with
      | (true, rest) => (t.markFor, ⟨rest, some t⟩)
      | (false, rest) => (t, ⟨rest, none⟩)
    else (t, ⟨rest, none⟩)

/-- The next `n` tokens of the marked stream. -/
def take : Nat → Marker → List Token
  | 0, _ => []
  | n + 1, m => m.next.1 :: take n m.next.2

end Marker

/-- The stream with its function literals marked, up to the first end of the input. No token gives
more than two. -/
def TokenStream.marked (s : TokenStream) : TokenStream :=
  { s with
    tokens := ((Marker.ofStream s).take (2 * s.tokens.length)).takeWhile (·.kind ≠ .eof) }

end ArrowCalc
